import Template.Proofs.Pulling
import Template.Pull.Construct

namespace Template

namespace Opening

variable {x : Char} {xs : List Char}

theorem of?_bang (xs : List Char) :
    of? ('<' :: '!' :: xs) = if ['-', '-'].isPrefixOf xs then some .comment else none := by
  by_cases hdashes : ['-', '-'].isPrefixOf xs = true
  · obtain ⟨ys, rfl⟩ := List.isPrefixOf_iff_prefix.1 hdashes
    rfl
  · rw [if_neg hdashes]
    unfold of?
    split
    · rename_i heq
      cases heq
    · rename_i heq
      cases heq
      exact absurd rfl hdashes
    · rename_i heq
      cases heq
      rfl
    · rename_i heq
      cases heq
    · rfl

theorem of?_angle (hslash : x ≠ '/') (hbang : x ≠ '!') (xs : List Char) :
    of? ('<' :: x :: xs) = if Text.isNameStart x then some .startTag else none := by
  unfold of?
  split <;> simp_all

theorem of?_eq_none (h : x = '<' ∨ x = '{' ∧ xs.head? = some '{' → False) :
    of? (x :: xs) = none :=
  Option.not_isSome_iff_eq_none.1 fun hopens => h (Scan.opens_eq_true hopens)

end Opening

namespace Pull

variable {ω : Type} [Window ω] [Tracking ω] {w : ω} {c : Cursor}

section Tags

def Mode.after : Token.Kind → Mode
  | .startTag name _ => if Element.isRawText name then .rawText name else .text
  | .endOfInput => .endOfInput
  | _ => .text

def Turn.ofToken (t : Token) : Turn := { token := some t, mode := Mode.after t.kind }

def turnOf : EStateM.Result SyntaxError Cursor Token → EStateM.Result SyntaxError Cursor Turn
  | .ok t d => .ok (Turn.ofToken t) d
  | .error e d => .error e d

def startTagEnd (name : String) (start : Position) (attributes : List Attribute) (c : Cursor) :
    EStateM.Result SyntaxError Cursor Token :=
  match Scan.attributes c with
  | .error e d => .error e d
  | .ok more d =>
    let e := d.skip 1
    match d.rest.head? with
    | some '>' => .ok ⟨Scan.tagKind name (attributes ++ more), start⟩ e
    | some '/' =>
      if e.rest.head? = some '>' then
        .ok ⟨.selfClosingTag name (attributes ++ more), start⟩ (d.skip 2)
      else .error ⟨.unclosedSlash e.rest.head?, e.position⟩ e
    | found => .error ⟨.unexpected found, e.position⟩ e

theorem startTag_eq (start : Position) (c : Cursor) :
    Scan.startTag start c =
      startTagEnd (String.ofList (c.rest.takeWhile Text.isNameChar)) start []
        (c.skip (c.rest.takeWhile Text.isNameChar).length) := by
  rw [Scan.startTag, Scan.bind_of_ok (Scan.name_apply c), Scan.bind_apply, startTagEnd]
  cases Scan.attributes (c.skip (c.rest.takeWhile Text.isNameChar).length) with
  | error e d => rfl
  | ok more d =>
    simp only [Scan.bind_apply, Scan.read_apply, List.nil_append]
    generalize d.rest.head? = found
    split
    · rfl
    · simp only [Scan.bind_apply, Scan.position_apply, Scan.peek_apply, Scan.require_apply]
      by_cases hclose : (d.skip 1).rest.head? = some '>'
      · rw [if_pos hclose, if_pos hclose]
        simp
      · rw [if_neg hclose, if_neg hclose]
    · simp_all

theorem startTagEnd_of_blank (name : String) (start : Position) (attributes : List Attribute)
    {x : Char} {xs : List Char} (hc : c.rest = x :: xs) (hx : Text.isBlank x = true) :
    startTagEnd name start attributes c =
      match attributesEnd attributes (c.skip 1) with
      | .ok as d => startTagEnd name start as d
      | .error e d => .error e d := by
  have hall : Scan.attributes c = Scan.many Scan.attribute? (c.skip 1) := by
    rw [attributes_apply, hc, List.head?_cons, Option.any_some, if_pos hx,
      many_attribute?_skip hc hx]
  cases hmany : Scan.many Scan.attribute? (c.skip 1) with
  | error e d =>
    rw [startTagEnd, attributesEnd, hall, hmany]
  | ok more d =>
    have hend : attributesEnd attributes (c.skip 1) = .ok (attributes ++ more) d := by
      rw [attributesEnd, hmany]
    have hnone : Scan.attributes d = .ok [] d := by
      rw [attributes_apply, head?_of_attributesEnd hend, if_neg Bool.false_ne_true]
    rw [hend, startTagEnd, hall, hmany]
    simp [startTagEnd, hnone]

theorem steps_startTag_blank (name : String) (start : Position) (attributes : List Attribute)
    {x : Char} {xs : List Char} (hc : c.rest = x :: xs) (hx : Text.isBlank x = true)
    (h : At w c 0) :
    Pulls (startTagStep name start attributes) w
      (Steps (fun as c => turnOf (startTagEnd name start as c)) attributes c) := by
  have hspec := startTagEnd_of_blank name start attributes hc hx
  apply pulls_read h (by decide)
  intro w h
  apply pulls_position h
  intro w h
  rw [List.drop_zero, hc, List.head?_cons]
  split
  · rename_i heq
    cases heq
    cases hx
  · rename_i heq
    cases heq
    cases hx
  · rw [Option.any_some, if_pos hx]
    apply pulls_bind (pulls_attributes attributes h.here)
    · intro as w d h hd
      apply pulls_return h
      rw [hd] at hspec
      have hlt := Cursor.Reaches.length_lt (c := c) (by rw [hc]; exact List.cons_ne_nil _ _)
        (Nat.one_pos) (reaches_of_attributesEnd hd)
      exact ⟨hlt, congrArg turnOf hspec⟩
    · intro e d he
      rw [he] at hspec
      exact congrArg turnOf hspec

theorem steps_startTag_end (name : String) (start : Position) (attributes : List Attribute)
    (hblank : ¬ c.rest.head?.any Text.isBlank = true) (h : At w c 0) :
    Pulls (startTagStep name start attributes) w
      (Steps (fun as c => turnOf (startTagEnd name start as c)) attributes c) := by
  have hnone : Scan.attributes c = .ok [] c := by
    rw [attributes_apply, if_neg hblank]
  have hspec : startTagEnd name start attributes c = match c.rest.head? with
    | some '>' => .ok ⟨Scan.tagKind name attributes, start⟩ (c.skip 1)
    | some '/' =>
      if (c.skip 1).rest.head? = some '>' then
        .ok ⟨.selfClosingTag name attributes, start⟩ (c.skip 2)
      else .error ⟨.unclosedSlash (c.skip 1).rest.head?, (c.skip 1).position⟩ (c.skip 1)
    | found => .error ⟨.unexpected found, (c.skip 1).position⟩ (c.skip 1) := by
    rw [startTagEnd, hnone]
    simp only [List.append_nil]
  apply pulls_read h (by decide)
  intro w h
  apply pulls_position h
  intro w h
  rw [List.drop_zero]
  generalize c.rest.head? = found at hspec hblank
  split
  · apply pulls_read h (by decide)
    intro w h
    rw [Nat.zero_add, ← Cursor.rest_skip]
    simp only at hspec
    split
    · rename_i hclose
      apply pulls_pure h
      rw [if_pos hclose] at hspec
      exact congrArg turnOf hspec
    · rename_i hclose
      apply pulls_takeBack h (by decide)
      intro w h
      apply pulls_fail h
      rw [if_neg hclose] at hspec
      exact congrArg turnOf hspec
  · simp only [Scan.tagKind] at hspec
    split
    · rename_i hvoid
      apply pulls_pure h
      rw [if_pos hvoid] at hspec
      exact congrArg turnOf hspec
    · rename_i hvoid
      rw [if_neg hvoid] at hspec
      split
      · rename_i hraw
        apply pulls_pure h
        refine (congrArg turnOf hspec).trans ?_
        simp [turnOf, Turn.ofToken, Mode.after, hraw]
      · rename_i hraw
        apply pulls_pure h
        refine (congrArg turnOf hspec).trans ?_
        simp [turnOf, Turn.ofToken, Mode.after, hraw]
  · rw [if_neg hblank]
    apply pulls_fail h
    refine (congrArg turnOf hspec).trans ?_
    split
    · contradiction
    · contradiction
    · rfl

theorem steps_startTag (name : String) (start : Position) (attributes : List Attribute)
    (h : At w c 0) :
    Pulls (startTagStep name start attributes) w
      (Steps (fun as c => turnOf (startTagEnd name start as c)) attributes c) := by
  by_cases hblank : c.rest.head?.any Text.isBlank = true
  · rcases c.rest_eq_nil_or_cons with hc | ⟨x, xs, hc⟩
    · rw [hc] at hblank
      cases hblank
    · rw [hc] at hblank
      exact steps_startTag_blank name start attributes hc hblank h
  · exact steps_startTag_end name start attributes hblank h

theorem pulls_startTag (start : Position) (h : At w c 0) :
    Pulls (startTag start) w (Ends (turnOf (Scan.startTag start c))) := by
  apply pulls_bind (pulls_name h)
  · intro name w d h hd
    cases hd
    rw [startTag_eq]
    exact pulls_loop (fun as _ _ h => steps_startTag _ start as h) [] h
  · intro e d he
    cases he

theorem pulls_endTag (start : Position) (h : At w c 0) :
    Pulls (endTag start) w (Ends (turnOf (Scan.endTag start c))) := by
  apply pulls_bind (pulls_name h)
  · intro name w d h hd
    cases hd
    rw [Scan.endTag, Scan.bind_of_ok (Scan.name_apply c)]
    apply pulls_bind (pulls_expect h '>')
    · intro _ w e h he
      rw [Scan.bind_of_ok he, Scan.bind_apply, Scan.require_apply]
      split
      · rename_i hvoid
        apply pulls_fail (n := 0) h
        rw [hvoid]
        rfl
      · rename_i hvoid
        apply pulls_return h
        rw [Bool.not_eq_true] at hvoid
        rw [hvoid]
        rfl
    · intro e d he
      rw [Scan.bind_apply, he]
      rfl
  · intro e d he
    cases he

theorem pulls_mustache (start : Position) (h : At w c 0) :
    Pulls (mustache start) w (Ends (turnOf (Scan.mustache start c))) := by
  rw [Scan.mustache, Scan.bind_apply]
  apply pulls_bind (pulls_mustacheBody h)
  · intro expression w d h hd
    apply pulls_return h
    rw [hd]
    rfl
  · intro e d he
    rw [he]
    rfl

end Tags

section Comment

def commentEnd (taken : List Char) (c : Cursor) : EStateM.Result SyntaxError Cursor String :=
  let data := Text.before Scan.endsComment c.rest
  .ok (String.ofList (taken.reverse ++ data)) (c.skip (data.length + 3))

theorem commentEnd_cons {taken : List Char} {x : Char} {xs : List Char} (hc : c.rest = x :: xs)
    (hx : Scan.endsComment (x :: xs) = false) :
    commentEnd taken c = commentEnd (x :: taken) (c.skip 1) := by
  simp [commentEnd, hc, Text.before_of_neg hx, Nat.add_comm 1, Nat.add_right_comm]

theorem steps_comment (taken : List Char) (h : At w c 0) :
    Pulls (commentStep taken) w (Steps commentEnd taken c) := by
  apply pulls_read h (by decide)
  intro w h
  rcases c.rest_eq_nil_or_cons with hc | ⟨x, xs, hc⟩
  · rw [hc]
    apply pulls_pure h
    simp [Steps, commentEnd, hc, Cursor.skip_of_nil]
  · rw [hc]
    simp only [List.drop_zero, List.head?_cons]
    split
    · contradiction
    · rename_i heq
      cases heq
      apply pulls_read h (by decide)
      intro w h
      apply pulls_read h (by decide)
      intro w h
      have hends : Scan.endsComment ('-' :: xs) = ['-', '>'].isPrefixOf xs := rfl
      rw [hc]
      simp only [Nat.zero_add, List.drop_succ_cons, List.drop_zero]
      split
      · rename_i hdash
        rw [isPrefixOf_pair_iff.2 hdash] at hends
        apply pulls_pure h
        simp [Steps, commentEnd, hc, Text.before_of_pos hends]
      · rename_i hdash
        rw [Bool.eq_false_iff.2 (mt isPrefixOf_pair_iff.1 hdash)] at hends
        apply pulls_takeBack h (by decide)
        intro w h
        apply pulls_pure h
        constructor
        · simp [hc]
        · exact commentEnd_cons hc hends
    · rename_i x' hx heq
      cases heq
      apply pulls_pure h
      constructor
      · simp [hc]
      · apply commentEnd_cons hc
        simpa [Scan.endsComment, List.isPrefixOf] using fun heq : '-' = x => absurd heq.symm hx

theorem pulls_comment (start : Position) (h : At w c 0) :
    Pulls (comment start) w (Ends (turnOf (Scan.comment start c))) := by
  have hspec : Scan.comment start c =
      .ok ⟨.comment (String.ofList (Text.before Scan.endsComment c.rest)), start⟩
        (c.skip ((Text.before Scan.endsComment c.rest).length + 3)) := by
    simp [Scan.comment]
  rw [hspec]
  apply pulls_bind (pulls_loop (fun taken _ _ h => steps_comment taken h) [] h)
  · intro data w d h hd
    cases hd
    exact pulls_return h rfl
  · intro e d he
    cases he

end Comment

section Text

def Mode.ofOpening (start : Position) : Opening → Mode
  | .endTag => .endTag start
  | .comment => .comment start
  | .startTag => .startTag start
  | .mustache => .mustache start

def Mode.behind (c : Cursor) : Mode :=
  (Opening.of? c.rest).elim .endOfInput (Mode.ofOpening c.nextPosition)

def entry (c : Cursor) : Cursor := c.skip ((Opening.of? c.rest).elim 0 Opening.width)

/-- What is found to be opened is what the text from the cursor on opens; where that is nothing,
the one character is text. -/
def Enters (start : Position) (c : Cursor) (o : Except SyntaxError (Option Mode)) (d : Cursor) :
    Prop :=
  o = .ok ((Opening.of? c.rest).map (Mode.ofOpening start)) ∧
    d = c.skip ((Opening.of? c.rest).elim 1 Opening.width)

theorem Enters.of_some {start : Position} {opening : Opening}
    (h : Opening.of? c.rest = some opening) :
    Enters start c (.ok (some (Mode.ofOpening start opening))) (c.skip opening.width) := by
  rw [Enters, h]
  exact ⟨rfl, rfl⟩

theorem Enters.of_none {start : Position} (h : Opening.of? c.rest = none) :
    Enters start c (.ok none) (c.skip 1) := by
  rw [Enters, h]
  exact ⟨rfl, rfl⟩

theorem pulls_opening (start : Position) {xs : List Char} (hc : c.rest = '<' :: xs)
    (h : At w (c.skip 1) 0) : Pulls (opening start) w (Enters start c) := by
  have hrest : (c.skip 1).rest = xs := by
    rw [Cursor.rest_skip, hc, List.drop_succ_cons, List.drop_zero]
  apply pulls_read h (by decide)
  intro w h
  rw [hrest, List.drop_zero]
  split
  · rename_i hslash
    obtain ⟨ys, rfl⟩ := List.head?_eq_some_iff.1 hslash
    apply pulls_return h.here
    rw [Cursor.skip_skip]
    have hopening : Opening.of? c.rest = some .endTag := by
      rw [hc]
      rfl
    exact .of_some hopening
  · rename_i hbang
    obtain ⟨ys, rfl⟩ := List.head?_eq_some_iff.1 hbang
    apply pulls_read h (by decide)
    intro w h
    apply pulls_read h (by decide)
    intro w h
    rw [hrest]
    simp only [Nat.zero_add, List.drop_succ_cons, List.drop_zero]
    have hof := Opening.of?_bang ys
    rw [← hc] at hof
    split
    · rename_i hdash
      rw [if_pos (isPrefixOf_pair_iff.2 hdash)] at hof
      apply pulls_return h.here
      rw [Cursor.skip_skip]
      exact .of_some hof
    · rename_i hdash
      rw [if_neg (mt isPrefixOf_pair_iff.1 hdash)] at hof
      apply pulls_takeBack h (by decide)
      intro w h
      apply pulls_return h
      exact .of_none hof
  · rename_i x hslash hbang hhead
    obtain ⟨ys, rfl⟩ := List.head?_eq_some_iff.1 hhead
    apply pulls_takeBack h (by decide)
    intro w h
    apply pulls_return h
    have hof : Opening.of? c.rest = if Text.isNameStart x then some .startTag else none := by
      rw [hc, Opening.of?_angle hslash hbang]
    split
    · rename_i hx
      rw [if_pos hx] at hof
      exact .of_some hof
    · rename_i hx
      rw [if_neg hx] at hof
      exact .of_none hof
  · rename_i hhead
    rw [List.head?_eq_none_iff] at hhead
    subst hhead
    apply pulls_takeBack h (by decide)
    intro w h
    apply pulls_return h
    exact .of_none (by rw [hc]; rfl)

theorem pulls_entered {x : Char} {xs : List Char} (start : Position) (hc : c.rest = x :: xs)
    (h : At w (c.skip 1) 0) : Pulls (entered x start) w (Enters start c) := by
  unfold entered
  split
  · exact pulls_opening start hc h
  · have hrest : (c.skip 1).rest = xs := by
      rw [Cursor.rest_skip, hc, List.drop_succ_cons, List.drop_zero]
    apply pulls_read h (by decide)
    intro w h
    rw [hrest, List.drop_zero]
    split
    · rename_i hbrace
      obtain ⟨ys, rfl⟩ := List.head?_eq_some_iff.1 hbrace
      apply pulls_return h.here
      rw [Cursor.skip_skip]
      have hopening : Opening.of? c.rest = some .mustache := by
        rw [hc]
        rfl
      exact .of_some hopening
    · rename_i hbrace
      apply pulls_takeBack h (by decide)
      intro w h
      apply pulls_return h
      apply Enters.of_none
      rw [hc, Opening.of?_eq_none (by simpa using hbrace)]
  · rename_i hlt hbrace
    apply pulls_return h
    apply Enters.of_none
    rw [hc, Opening.of?_eq_none (fun hopens => hopens.elim hlt fun h => hbrace h.1)]

def textStart? (c : Cursor) (run : List Char) : Option Position :=
  if Text.stripLayout run = [] then none
  else some (c.skip (Text.leadingLayout run).length).nextPosition

def textEnd (taken : List Char × Option Position) (c : Cursor) :
    EStateM.Result SyntaxError Cursor Turn :=
  let run := Text.before Scan.opens c.rest
  let d := c.skip run.length
  .ok (finishText ((Text.stripLayout run).reverse ++ taken.1, taken.2.or (textStart? c run))
    (Mode.behind d)) (entry d)

variable {taken : List Char × Option Position} {x : Char} {xs : List Char}

theorem textEnd_stop (h : Text.before Scan.opens c.rest = []) :
    textEnd taken c = .ok (finishText taken (Mode.behind c)) (entry c) := by
  simp [textEnd, h, textStart?]

theorem textEnd_cons (hc : c.rest = x :: xs) (hopens : Scan.opens (x :: xs) = false)
    (hx : x ≠ '\n') :
    textEnd taken c = textEnd (x :: taken.1, taken.2.or (some c.nextPosition)) (c.skip 1) := by
  have hstrip : ∀ run, Text.stripLayout (x :: run) = x :: Text.stripLayout run := by
    intro run
    simp [Text.stripLayout, Text.stripLayoutFrom, hx]
  have hlead : ∀ run, Text.leadingLayout (x :: run) = [] := by
    intro run
    simp [Text.leadingLayout, hx]
  simp [textEnd, hc, Text.before_of_neg hopens, hstrip, textStart?, hlead, Nat.add_comm 1]

theorem textEnd_break (hc : c.rest = '\n' :: xs) :
    textEnd taken c = textEnd taken (c.skip ((xs.takeWhile Text.isBlank).length + 1)) := by
  have hblank : ∀ x ∈ xs.takeWhile Text.isBlank, Text.isBlank x = true :=
    List.all_eq_true.1 List.all_takeWhile
  have hhead := List.head?_dropWhile_not Text.isBlank xs
  have hsplit : c.rest = '\n' :: xs.takeWhile Text.isBlank ++ xs.dropWhile Text.isBlank := by
    rw [hc, List.cons_append, List.takeWhile_append_dropWhile]
  generalize xs.takeWhile Text.isBlank = ws at hblank hsplit
  generalize xs.dropWhile Text.isBlank = cs at hhead hsplit
  have hquiet : ∀ x ∈ '\n' :: ws, ∀ ds, Scan.opens (x :: ds) = false := by
    intro x hx ds
    rw [← Bool.not_eq_true]
    intro hopens
    rcases List.mem_cons.1 hx with rfl | hx
    · cases hopens
    · have hx := hblank x hx
      rcases Scan.opens_eq_true hopens with rfl | ⟨rfl, -⟩ <;> cases hx
  have hrest : (c.skip (ws.length + 1)).rest = cs := by
    rw [Cursor.rest_skip, hsplit, List.drop_left' List.length_cons]
  have hbefore : Text.before Scan.opens c.rest = '\n' :: (ws ++ Text.before Scan.opens cs) := by
    rw [hsplit, Text.before_append_of_neg hquiet, List.cons_append]
  have hrun : (Text.before Scan.opens cs).head?.any Text.isBlank = false := by
    cases cs with
    | nil => rfl
    | cons x cs =>
      rw [Text.before]
      split
      · rfl
      · exact hhead
  simp only [textEnd, hbefore, hrest, Text.stripLayout_break hblank hrun, textStart?,
    Text.leadingLayout_break hblank hrun, Text.leadingLayout_eq_nil hrun, Cursor.skip_skip,
    List.length_cons, List.length_append, List.length_nil, Nat.add_zero, Nat.add_right_comm]

theorem steps_text (taken : List Char × Option Position) (h : At w c 0) :
    Pulls (textStep taken) w (Steps textEnd taken c) := by
  apply pulls_read h (by decide)
  intro w h
  rcases c.rest_eq_nil_or_cons with hc | ⟨x, xs, hc⟩
  · rw [hc]
    apply pulls_pure h
    rw [Steps, textEnd_stop (by rw [hc]; rfl), Mode.behind, entry, hc, Cursor.skip_of_nil hc,
      Cursor.skip_of_nil hc]
    rfl
  · rw [hc]
    simp only [List.drop_zero, List.head?_cons]
    split
    · contradiction
    · rename_i heq
      cases heq
      apply pulls_bind (pulls_skipBlanks h.here)
      · intro _ w d h hd
        cases hd
        apply pulls_return h
        rw [Nat.zero_add, Cursor.rest_skip, hc, List.drop_succ_cons, List.drop_zero,
          Cursor.skip_skip, Nat.add_comm 1]
        exact ⟨Cursor.length_skip_lt hc (Nat.succ_pos _), textEnd_break hc⟩
      · intro e d he
        cases he
    · rename_i x' hx heq
      cases heq
      apply pulls_position h
      intro w h
      apply pulls_bind (pulls_entered _ hc h.here)
      · intro mode? w d h hd
        obtain ⟨hmode, hcursor⟩ := hd
        cases hopening : Opening.of? c.rest with
        | some opening =>
          rw [hopening] at hmode hcursor
          cases hmode
          cases hcursor
          apply pulls_return h
          have hopens : Scan.opens c.rest = true := by rw [Scan.opens, hopening]; rfl
          rw [Steps, textEnd_stop (Text.before_of_pos hopens), Mode.behind, entry, hopening]
          rfl
        | none =>
          rw [hopening] at hmode hcursor
          cases hmode
          cases hcursor
          apply pulls_return h
          have hopens : Scan.opens c.rest = false := by rw [Scan.opens, hopening]; rfl
          rw [hc] at hopens
          exact ⟨Cursor.length_skip_lt hc Nat.one_pos, textEnd_cons hc hopens hx⟩
      · intro e d he
        cases he.1

theorem textEnd_start (c : Cursor) :
    textEnd ([], none) c =
      let run := Text.before Scan.opens c.rest
      let d := c.skip run.length
      .ok { token := Scan.textToken? c run, mode := Mode.behind d } (entry d) := by
  simp only [textEnd, List.append_nil, Option.none_or, finishText, textStart?, Scan.textToken?,
    List.reverse_reverse]
  generalize Text.stripLayout (Text.before Scan.opens c.rest) = data
  cases data with
  | nil => rfl
  | cons x xs => rfl

theorem pulls_text (h : At w c 0) : Pulls text w (Ends (textEnd ([], none) c)) :=
  pulls_loop (fun taken _ _ h => steps_text taken h) ([], none) h

end Text

section RawText

open Scan (closingTag)

variable {name : String} {taken : List Char × Option Position}

theorem isPrefixOf_closingTag_iff (hname : ∀ x ∈ name.toList, Text.isNameChar x = true)
    (xs : List Char) :
    (closingTag name).isPrefixOf ('<' :: '/' :: xs) = true ↔
      String.ofList (xs.takeWhile Text.isNameChar) = name ∧
        (xs.drop (xs.takeWhile Text.isNameChar).length).head? = some '>' := by
  rw [List.isPrefixOf_iff_prefix]
  constructor
  · rintro ⟨ys, hys⟩
    simp only [closingTag, List.cons_append, List.nil_append, List.append_assoc] at hys
    cases hys
    rw [Text.takeWhile_append_stop hname (by decide), List.drop_left, String.ofList_toList]
    exact ⟨rfl, rfl⟩
  · rintro ⟨rfl, hclose⟩
    obtain ⟨ys, hys⟩ := List.head?_eq_some_iff.1 hclose
    refine ⟨ys, ?_⟩
    have hsplit := List.prefix_iff_eq_append.1 (List.takeWhile_prefix (l := xs) Text.isNameChar)
    rw [hys] at hsplit
    simp only [closingTag, String.toList_ofList, List.cons_append, List.nil_append,
      List.append_assoc, hsplit]

def rawTextEnd (name : String) (taken : List Char × Option Position) (c : Cursor) :
    EStateM.Result SyntaxError Cursor Turn :=
  let body := Text.before (closingTag name).isPrefixOf c.rest
  let d := c.skip body.length
  if (closingTag name).isPrefixOf d.rest then
    .ok (finishRawText name
        (body.reverse ++ taken.1, taken.2.or (if body = [] then none else some c.nextPosition))
        d.nextPosition)
      (d.skip (closingTag name).length)
  else .error ⟨.unexpected none, d.position⟩ d

theorem rawTextEnd_stop (h : (closingTag name).isPrefixOf c.rest = true) :
    rawTextEnd name taken c =
      .ok (finishRawText name taken c.nextPosition) (c.skip (closingTag name).length) := by
  simp [rawTextEnd, Text.before_of_pos h, h]

theorem rawTextEnd_nil (hc : c.rest = []) :
    rawTextEnd name taken c = .error ⟨.unexpected none, c.position⟩ c := by
  simp [rawTextEnd, hc, closingTag]

theorem rawTextEnd_append {x : Char} (xs : List Char) {ys : List Char} (hc : c.rest = x :: xs ++ ys)
    (hx : (closingTag name).isPrefixOf c.rest = false) (hxs : ∀ x ∈ xs, x ≠ '<') :
    rawTextEnd name taken c =
      rawTextEnd name ((x :: xs).reverse ++ taken.1, taken.2.or (some c.nextPosition))
        (c.skip (xs.length + 1)) := by
  have hrest : (c.skip (xs.length + 1)).rest = ys := by
    rw [Cursor.rest_skip, hc, List.drop_left' List.length_cons]
  have hbefore : Text.before (closingTag name).isPrefixOf c.rest =
      x :: (xs ++ Text.before (closingTag name).isPrefixOf ys) := by
    rw [hc, List.cons_append] at hx ⊢
    rw [Text.before_of_neg hx, Scan.before_closingTag_append hxs]
  have hskip : ∀ b : List Char,
      c.skip (x :: (xs ++ b)).length = (c.skip (xs.length + 1)).skip b.length := by
    intro b
    rw [Cursor.skip_skip, List.length_cons, List.length_append, Nat.add_right_comm]
  rw [rawTextEnd, rawTextEnd, hbefore, hskip, hrest]
  simp

theorem rawTextEnd_slash {ys : List Char} (hc : c.rest = '<' :: '/' :: ys)
    (hnot : (closingTag name).isPrefixOf c.rest = false) :
    rawTextEnd name taken c =
      rawTextEnd name ((['<', '/'] ++ ys.takeWhile Text.isNameChar).reverse ++ taken.1,
        taken.2.or (some c.nextPosition)) (c.skip (2 + (ys.takeWhile Text.isNameChar).length)) := by
  have hsplit : c.rest =
      '<' :: ('/' :: ys.takeWhile Text.isNameChar) ++ ys.dropWhile Text.isNameChar := by
    rw [hc, List.cons_append, List.cons_append, List.takeWhile_append_dropWhile]
  have hangles : ∀ x ∈ '/' :: ys.takeWhile Text.isNameChar, x ≠ '<' := by
    rintro x hx rfl
    rcases List.mem_cons.1 hx with hx | hx
    · cases hx
    · cases List.all_eq_true.1 List.all_takeWhile _ hx
  rw [rawTextEnd_append _ hsplit hnot hangles, List.length_cons, Nat.add_assoc, Nat.add_comm _ 2]
  rfl

theorem isPrefixOf_closingTag_eq_false (name : String) {x : Char} {xs : List Char}
    (h : x = '<' → xs.head? ≠ some '/') : (closingTag name).isPrefixOf (x :: xs) = false := by
  rw [← Bool.not_eq_true, List.isPrefixOf_iff_prefix]
  intro hprefix
  obtain ⟨hx, ys, hys⟩ := List.cons_prefix_cons.1 hprefix
  apply h hx.symm
  rw [← hys]
  rfl

theorem steps_rawTextEnd_cons {x : Char} {xs : List Char} (hc : c.rest = x :: xs)
    (hx : x = '<' → xs.head? ≠ some '/') :
    Steps (rawTextEnd name) taken c
      (.ok (.inl (x :: taken.1, taken.2.or (some c.nextPosition)))) (c.skip 1) := by
  refine ⟨Cursor.length_skip_lt hc Nat.one_pos, ?_⟩
  exact rawTextEnd_append [] hc (hc ▸ isPrefixOf_closingTag_eq_false name hx)
    (List.forall_mem_nil _)

theorem steps_rawText_slash (hname : ∀ x ∈ name.toList, Text.isNameChar x = true)
    {ys : List Char} (hc : c.rest = '<' :: '/' :: ys) (h : At w c 0) :
    Pulls (rawTextStep name taken) w (Steps (rawTextEnd name) taken c) := by
  have hrest : (c.skip 2).rest = ys := by
    rw [Cursor.rest_skip, hc, List.drop_succ_cons, List.drop_succ_cons, List.drop_zero]
  have hclose := isPrefixOf_closingTag_iff hname ys
  rw [← hc] at hclose
  have hcandidate : Scan.name (c.skip 2) = .ok (String.ofList (ys.takeWhile Text.isNameChar))
      (c.skip (2 + (ys.takeWhile Text.isNameChar).length)) := by
    rw [Scan.name_apply, hrest, Cursor.skip_skip]
  have hpass : (closingTag name).isPrefixOf c.rest = false →
      Steps (rawTextEnd name) taken c (.ok (.inl
        ((['<', '/'] ++ ys.takeWhile Text.isNameChar).reverse ++ taken.1,
          taken.2.or (some c.nextPosition))))
        (c.skip (2 + (ys.takeWhile Text.isNameChar).length)) :=
    fun hnot => ⟨Cursor.length_skip_lt hc (by omega), rawTextEnd_slash hc hnot⟩
  apply pulls_read h (by decide)
  intro w h
  rw [hc]
  apply pulls_position h
  intro w h
  apply pulls_read h (by decide)
  intro w h
  rw [hc, List.drop_succ_cons, List.drop_zero, List.head?_cons, if_pos rfl]
  apply pulls_bind (pulls_name h.here)
  · intro candidate w d h hd
    have hd := hcandidate.symm.trans hd
    cases hd
    rw [String.toList_ofList]
    split
    · rename_i hown
      apply pulls_read h (by decide)
      intro w h
      have hnext : (c.skip (2 + (ys.takeWhile Text.isNameChar).length)).rest =
          ys.drop (ys.takeWhile Text.isNameChar).length := by
        rw [← Cursor.skip_skip, Cursor.rest_skip, hrest]
      rw [hnext, List.drop_zero]
      split
      · rename_i hangle
        have hstop := hclose.2 ⟨hown, hangle⟩
        apply pulls_return h.here
        have hlength : (closingTag name).length =
            2 + (ys.takeWhile Text.isNameChar).length + 1 := by
          rw [← hown]
          simp [closingTag, Nat.add_comm 2]
        rw [Steps, rawTextEnd_stop hstop, Cursor.skip_skip, hlength]
        rfl
      · rename_i hangle
        apply pulls_takeBack h (Nat.le_refl 1)
        intro w h
        apply pulls_return h
        exact hpass (Bool.eq_false_iff.2 fun hstop => hangle (hclose.1 hstop).2)
    · rename_i hother
      apply pulls_return h
      exact hpass (Bool.eq_false_iff.2 fun hstop => hother (hclose.1 hstop).1)
  · intro e d he
    cases he

theorem steps_rawText (hname : ∀ x ∈ name.toList, Text.isNameChar x = true) (h : At w c 0) :
    Pulls (rawTextStep name taken) w (Steps (rawTextEnd name) taken c) := by
  by_cases hslash : ∃ ys, c.rest = '<' :: '/' :: ys
  · obtain ⟨ys, hc⟩ := hslash
    exact steps_rawText_slash hname hc h
  apply pulls_read h (by decide)
  intro w h
  rcases c.rest_eq_nil_or_cons with hc | ⟨x, xs, hc⟩
  · rw [hc]
    apply pulls_position h
    intro w h
    apply pulls_fail h
    rw [Steps, rawTextEnd_nil hc, Cursor.skip_of_nil hc]
  have hx : x = '<' → xs.head? ≠ some '/' := by
    rintro rfl hhead
    obtain ⟨ys, rfl⟩ := List.head?_eq_some_iff.1 hhead
    exact hslash ⟨ys, hc⟩
  rw [hc]
  simp only [List.drop_zero, List.head?_cons]
  split
  · contradiction
  · rename_i heq
    cases heq
    apply pulls_position h
    intro w h
    apply pulls_read h (by decide)
    intro w h
    rw [hc, List.drop_succ_cons, List.drop_zero, if_neg (hx rfl)]
    apply pulls_takeBack h (by decide)
    intro w h
    apply pulls_return h.here
    exact steps_rawTextEnd_cons hc hx
  · rename_i x' _ heq
    cases heq
    apply pulls_position h
    intro w h
    apply pulls_return h.here
    exact steps_rawTextEnd_cons hc hx

theorem rawTextEnd_start (name : String) (c : Cursor) :
    rawTextEnd name ([], none) c =
      let body := Text.before (closingTag name).isPrefixOf c.rest
      let d := c.skip body.length
      if (closingTag name).isPrefixOf d.rest then
        .ok (if body = [] then { token := some ⟨.endTag name, d.nextPosition⟩ }
          else
            { token := some ⟨.text (String.ofList body), c.nextPosition⟩
              held := some ⟨.endTag name, d.nextPosition⟩ })
          (d.skip (closingTag name).length)
      else .error ⟨.unexpected none, d.position⟩ d := by
  simp only [rawTextEnd, List.append_nil, Option.none_or, finishRawText]
  by_cases hbody : Text.before (closingTag name).isPrefixOf c.rest = []
  · rw [if_pos hbody, if_pos hbody]
  · rw [if_neg hbody, if_neg hbody, List.reverse_reverse]

theorem pulls_rawText (hname : ∀ x ∈ name.toList, Text.isNameChar x = true) (h : At w c 0) :
    Pulls (rawText name) w (Ends (rawTextEnd name ([], none) c)) :=
  pulls_loop (fun _ _ _ h => steps_rawText hname h) ([], none) h

end RawText

end Pull

end Template
