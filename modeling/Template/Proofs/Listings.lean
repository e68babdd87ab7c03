import Template.Proofs.Calls
import Template.Proofs.Discerning

namespace Template

namespace Listing

open Text (Discerns)

variable {α : Type} {f : α → String} {P Q : Prop}

section Pieces

variable {v w v' w' : String}

theorem discerns_append (h : Discerns v.toList w.toList P) (h' : Discerns v'.toList w'.toList Q) :
    Discerns (v ++ v').toList (w ++ w').toList (P ∧ Q) := by
  rw [String.toList_append, String.toList_append]
  exact h.append h'

theorem discerns_around (front back : String) (h : Discerns v.toList w.toList P) :
    Discerns (front ++ v ++ back).toList (front ++ w ++ back).toList P := by
  simp only [String.toList_append]
  exact (h.behind _).before _

theorem discerns_tuple (name : String) (h : Discerns v.toList w.toList P) :
    Discerns (tuple name v).toList (tuple name w).toList P :=
  discerns_around (name ++ "(") ")" h

/-- The fields of two records, under the same names, together tell what each of them tells. -/
inductive FieldsDiscern : List (String × String) → List (String × String) → Prop → Prop
  | nil : FieldsDiscern [] [] True
  | cons {key v w : String} {fs gs : List (String × String)} {P Q : Prop} :
    Discerns v.toList w.toList P → FieldsDiscern fs gs Q →
      FieldsDiscern ((key, v) :: fs) ((key, w) :: gs) (P ∧ Q)

theorem FieldsDiscern.discerns {fs gs : List (String × String)} (h : FieldsDiscern fs gs P) :
    Discerns (", ".intercalate (fs.map fun f => f.1 ++ ": " ++ f.2)).toList
      (", ".intercalate (gs.map fun f => f.1 ++ ": " ++ f.2)).toList P := by
  induction h with
  | nil => exact .refl _
  | @cons key v w fs gs P Q hfield hrest ih =>
    cases hrest with
    | nil =>
      have hlast := discerns_around (key ++ ": ") "" hfield
      rw [String.append_empty, String.append_empty] at hlast
      exact hlast.mono fun h => ⟨h, trivial⟩
    | cons _ _ =>
      simp only [List.map_cons, String.intercalate_cons_cons] at ih ⊢
      exact discerns_append (discerns_around (key ++ ": ") ", " hfield) ih

theorem discerns_record {fs gs : List (String × String)} (name : String)
    (h : FieldsDiscern fs gs P) : Discerns (record name fs).toList (record name gs).toList P :=
  discerns_around (name ++ " \x7b ") " \x7d" h.discerns

theorem toList_items_singleton (f : α → String) (a : α) :
    (", ".intercalate ([a].map f) ++ "]").toList = (f a).toList ++ [']'] := by
  simp

theorem toList_items_cons (f : α → String) (a a' : α) (as : List α) :
    (", ".intercalate ((a :: a' :: as).map f) ++ "]").toList =
      (f a).toList ++ ([',', ' '] ++ (", ".intercalate ((a' :: as).map f) ++ "]").toList) := by
  simp

theorem discerns_items (hf : ∀ a b, Discerns (f a).toList (f b).toList (a = b)) (a b : α)
    (as bs : List α) :
    Discerns (", ".intercalate ((a :: as).map f) ++ "]").toList
      (", ".intercalate ((b :: bs).map f) ++ "]").toList (a :: as = b :: bs) := by
  have hlast : ∀ a b s t, (f a).toList ++ ']' :: s ≠ (f b).toList ++ ',' :: t := by
    intro a b s t heq
    exact absurd (List.cons.inj (hf a b heq).2).1 (by decide)
  induction as generalizing a b bs with
  | nil =>
    cases bs with
    | nil =>
      rw [toList_items_singleton, toList_items_singleton]
      exact ((hf a b).before [']']).mono fun h => congrArg ([·]) h
    | cons b' bs =>
      rw [toList_items_singleton, toList_items_cons]
      intro s t heq
      simp only [List.append_assoc] at heq
      exact absurd heq (hlast a b _ _)
  | cons a' as ih =>
    cases bs with
    | nil =>
      rw [toList_items_singleton, toList_items_cons]
      intro s t heq
      simp only [List.append_assoc] at heq
      exact absurd heq.symm (hlast b a _ _)
    | cons b' bs =>
      rw [toList_items_cons, toList_items_cons]
      have hitems := (hf a b).append ((ih a' b' bs).behind [',', ' '])
      exact hitems.mono fun h => List.cons_eq_cons.2 h

theorem discerns_list (hf : ∀ a b, Discerns (f a).toList (f b).toList (a = b))
    (hhead : ∀ a s t, (f a).toList ++ s ≠ ']' :: t) (as bs : List α) :
    Discerns (list (as.map f)).toList (list (bs.map f)).toList (as = bs) := by
  have hne : ∀ a as s t, (", ".intercalate ((a :: as).map f) ++ "]").toList ++ s ≠ ']' :: t := by
    intro a as s t heq
    cases as with
    | nil =>
      rw [toList_items_singleton, List.append_assoc] at heq
      exact hhead a _ _ heq
    | cons a' as =>
      rw [toList_items_cons, List.append_assoc] at heq
      exact hhead a _ _ heq
  have hopen : ∀ items, (list items).toList = ['['] ++ (", ".intercalate items ++ "]").toList := by
    intro items
    simp [list]
  have hnone : (", ".intercalate (([] : List α).map f) ++ "]").toList = [']'] := by simp
  rw [hopen, hopen]
  refine Discerns.behind ['['] ?_
  cases as with
  | nil =>
    cases bs with
    | nil => exact (Discerns.refl _).mono fun _ => rfl
    | cons b bs =>
      rw [hnone]
      exact fun s t heq => absurd heq.symm (hne b bs t s)
  | cons a as =>
    cases bs with
    | nil =>
      rw [hnone]
      exact fun s t heq => absurd heq (hne a as s t)
    | cons b bs => exact discerns_items hf a b as bs

theorem toList_position (p : Position) : (position p).toList =
    "Position \x7b line: ".toList ++ ((Nat.toDigits 10 p.line ++ [',']) ++
      (" column: ".toList ++ ((Nat.toDigits 10 p.column ++ [' ']) ++ ['\x7d']))) := by
  simp [position, record]

theorem discerns_position (p q : Position) :
    Discerns (position p).toList (position q).toList (p = q) := by
  rw [toList_position, toList_position]
  have hline := Text.discerns_decimal (c := ',') (by decide) p.line q.line
  have hcolumn := Text.discerns_decimal (c := ' ') (by decide) p.column q.column
  refine ((hline.append ((hcolumn.before _).behind _)).behind _).mono ?_
  rintro ⟨hline, hcolumn⟩
  cases p
  cases q
  cases hline
  cases hcolumn
  rfl

theorem discerns_display (p q : Position) :
    Discerns (p.display ++ "\t").toList (q.display ++ "\t").toList (p = q) := by
  have hdisplay : ∀ p : Position, (p.display ++ "\t").toList =
      (Nat.toDigits 10 (p.line + 1) ++ [':']) ++ (Nat.toDigits 10 p.column ++ ['\t']) := by
    intro p
    simp [Position.display]
  rw [hdisplay, hdisplay]
  have hline := Text.discerns_decimal (c := ':') (by decide) (p.line + 1) (q.line + 1)
  have hcolumn := Text.discerns_decimal (c := '\t') (by decide) p.column q.column
  refine (hline.append hcolumn).mono ?_
  rintro ⟨hline, hcolumn⟩
  cases p
  cases q
  cases hline
  cases hcolumn
  rfl

end Pieces

section Words

def attributeWord : Attribute.Kind → String
  | .string _ _ _ => "String"
  | .mustache _ _ => "Mustache"
  | .bool _ => "Bool"
  | .variadic _ => "Variadic"

def tokenWord : Token.Kind → String
  | .endOfInput => "EndOfInput"
  | .text _ => "Text"
  | .mustache _ => "Mustache"
  | .comment _ => "Comment"
  | .startTag _ _ => "StartTag"
  | .selfClosingTag _ _ => "SelfClosingTag"
  | .endTag _ => "EndTag"

def words : List String := [
  "String", "Mustache", "Bool", "Variadic", "EndOfInput", "Text", "Comment", "StartTag",
  "SelfClosingTag", "EndTag"]

theorem attributeWord_mem_words (k : Attribute.Kind) : attributeWord k ∈ words := by
  cases k <;> simp [attributeWord, words]

theorem tokenWord_mem_words (k : Token.Kind) : tokenWord k ∈ words := by
  cases k <;> simp [tokenWord, words]

theorem words_inj {v w : String} (hv : v ∈ words) (hw : w ∈ words) {s t : List Char}
    (h : v.toList ++ s = w.toList ++ t) : v = w := by
  -- the first four letters tell the words apart
  have hlong : ∀ u ∈ words, 4 ≤ u.toList.length := by decide
  have hfour : ∀ u ∈ words, ∀ u' ∈ words, u.toList.take 4 = u'.toList.take 4 → u = u' := by decide
  have htake : ∀ u ∈ words, ∀ r, (u.toList ++ r).take 4 = u.toList.take 4 :=
    fun u hu r => List.take_append_of_le_length (hlong u hu)
  apply hfour v hv w hw
  rw [← htake v hv s, h, htake w hw t]

variable (plain : Char → Bool)

theorem exists_record (name : String) (fields : List (String × String)) :
    ∃ v, (record name fields).toList = name.toList ++ v :=
  ⟨_, by simp only [record, String.toList_append, List.append_assoc]; rfl⟩

theorem exists_tuple (name argument : String) :
    ∃ v, (tuple name argument).toList = name.toList ++ v :=
  ⟨_, by simp only [tuple, String.toList_append, List.append_assoc]; rfl⟩

theorem exists_attributeKind (k : Attribute.Kind) :
    ∃ v, (attributeKind plain k).toList = (attributeWord k).toList ++ v := by
  cases k <;> exact exists_record _ _

theorem exists_tokenKind (k : Token.Kind) :
    ∃ v, (tokenKind plain k).toList = (tokenWord k).toList ++ v := by
  cases k with
  | endOfInput => exact ⟨[], (List.append_nil _).symm⟩
  | startTag _ _ => exact exists_record _ _
  | selfClosingTag _ _ => exact exists_record _ _
  | _ => exact exists_tuple _ _

theorem word_eq {word : α → String} (hf : ∀ a, ∃ v, (f a).toList = (word a).toList ++ v)
    (hword : ∀ a, word a ∈ words) {a b : α} {s t : List Char}
    (h : (f a).toList ++ s = (f b).toList ++ t) : word a = word b := by
  obtain ⟨v, hv⟩ := hf a
  obtain ⟨w, hw⟩ := hf b
  rw [hv, hw, List.append_assoc, List.append_assoc] at h
  exact words_inj (hword a) (hword b) h

end Words

section Tokens

open Text.Quoted (string discerns_string)

variable (plain : Char → Bool)

theorem string_head_ne (a : String) (s t : List Char) :
    (string plain a).toList ++ s ≠ ']' :: t := by
  intro heq
  rw [string, String.toList_ofList] at heq
  exact absurd (List.cons.inj heq).1 (by decide)

theorem attr_head_ne (a : Attribute) (s t : List Char) : (attr plain a).toList ++ s ≠ ']' :: t := by
  intro heq
  obtain ⟨v, hv⟩ := exists_record "Attribute"
    [("kind", attributeKind plain a.kind), ("position", position a.position)]
  rw [attr, hv, List.append_assoc] at heq
  exact absurd (List.cons.inj heq).1 (by decide)

theorem discerns_attributeKind (k k' : Attribute.Kind) :
    Discerns (attributeKind plain k).toList (attributeKind plain k').toList (k = k') := by
  intro s t heq
  have hword := word_eq (exists_attributeKind plain) attributeWord_mem_words heq
  have hstring := discerns_string plain
  cases k with
  | string key value mustaches =>
    cases k' with
    | string key' value' mustaches' =>
      have hmustaches := discerns_list hstring (string_head_ne plain) mustaches mustaches'
      refine ((discerns_record "String" (.cons (hstring key key')
        (.cons (hstring value value') (.cons hmustaches .nil)))).mono ?_) heq
      rintro ⟨rfl, rfl, rfl, -⟩
      rfl
    | _ => simp [attributeWord] at hword
  | mustache key expression =>
    cases k' with
    | mustache key' expression' =>
      refine ((discerns_record "Mustache" (.cons (hstring key key')
        (.cons (hstring expression expression') .nil))).mono ?_) heq
      rintro ⟨rfl, rfl, -⟩
      rfl
    | _ => simp [attributeWord] at hword
  | bool key =>
    cases k' with
    | bool key' =>
      refine ((discerns_record "Bool" (.cons (hstring key key') .nil)).mono ?_) heq
      rintro ⟨rfl, -⟩
      rfl
    | _ => simp [attributeWord] at hword
  | variadic expression =>
    cases k' with
    | variadic expression' =>
      have hexpression := hstring expression expression'
      refine ((discerns_record "Variadic" (.cons hexpression .nil)).mono ?_) heq
      rintro ⟨rfl, -⟩
      rfl
    | _ => simp [attributeWord] at hword

theorem discerns_attr (a b : Attribute) :
    Discerns (attr plain a).toList (attr plain b).toList (a = b) := by
  refine (discerns_record "Attribute" (.cons (discerns_attributeKind plain a.kind b.kind)
    (.cons (discerns_position a.position b.position) .nil))).mono ?_
  rintro ⟨hkind, hposition, -⟩
  cases a
  cases b
  cases hkind
  cases hposition
  rfl

theorem discerns_tokenKind (k k' : Token.Kind) :
    Discerns (tokenKind plain k).toList (tokenKind plain k').toList (k = k') := by
  intro s t heq
  have hword := word_eq (exists_tokenKind plain) tokenWord_mem_words heq
  have hstring := discerns_string plain
  have hattributes := discerns_list (discerns_attr plain) (attr_head_ne plain)
  cases k with
  | endOfInput =>
    cases k' with
    | endOfInput => exact ((Discerns.refl _).mono fun _ => rfl) heq
    | _ => simp [tokenWord] at hword
  | text data =>
    cases k' with
    | text data' => exact ((discerns_tuple "Text" (hstring data data')).mono (congrArg _)) heq
    | _ => simp [tokenWord] at hword
  | mustache expression =>
    cases k' with
    | mustache expression' =>
      exact ((discerns_tuple "Mustache" (hstring expression expression')).mono (congrArg _)) heq
    | _ => simp [tokenWord] at hword
  | comment data =>
    cases k' with
    | comment data' => exact ((discerns_tuple "Comment" (hstring data data')).mono (congrArg _)) heq
    | _ => simp [tokenWord] at hword
  | startTag name attributes =>
    cases k' with
    | startTag name' attributes' =>
      refine ((discerns_record "StartTag" (.cons (hstring name name')
        (.cons (hattributes attributes attributes') .nil))).mono ?_) heq
      rintro ⟨rfl, rfl, -⟩
      rfl
    | _ => simp [tokenWord] at hword
  | selfClosingTag name attributes =>
    cases k' with
    | selfClosingTag name' attributes' =>
      refine ((discerns_record "SelfClosingTag" (.cons (hstring name name')
        (.cons (hattributes attributes attributes') .nil))).mono ?_) heq
      rintro ⟨rfl, rfl, -⟩
      rfl
    | _ => simp [tokenWord] at hword
  | endTag name =>
    cases k' with
    | endTag name' => exact ((discerns_tuple "EndTag" (hstring name name')).mono (congrArg _)) heq
    | _ => simp [tokenWord] at hword

theorem discerns_lineBy (t u : Token) :
    Discerns (lineBy plain t).toList (lineBy plain u).toList (t = u) := by
  have hline : ∀ t, lineBy plain t =
      t.position.display ++ "\t" ++ (tokenKind plain t.kind ++ "\n") := by
    intro t
    rw [lineBy, String.append_assoc]
  have hkind := discerns_append (discerns_tokenKind plain t.kind u.kind) (.refl "\n".toList)
  rw [hline, hline]
  refine (discerns_append (discerns_display t.position u.position) hkind).mono ?_
  rintro ⟨hposition, hkind, -⟩
  cases t
  cases u
  cases hkind
  cases hposition
  rfl

def printed (ts : List Token) : String := String.join (ts.map (lineBy plain))

theorem toList_printed_cons (t : Token) (ts : List Token) :
    (printed plain (t :: ts)).toList = (lineBy plain t).toList ++ (printed plain ts).toList := by
  rw [printed, List.map_cons, String.join_cons, String.toList_append, printed]

theorem printed_cons_ne (t : Token) (ts : List Token) : (printed plain (t :: ts)).toList ≠ [] := by
  simp [toList_printed_cons, lineBy]

theorem printed_injective : Function.Injective (printed plain) := by
  intro ts us heq
  rw [← String.toList_inj] at heq
  induction ts generalizing us with
  | nil =>
    cases us with
    | nil => rfl
    | cons u us => exact absurd heq.symm (printed_cons_ne plain u us)
  | cons t ts ih =>
    cases us with
    | nil => exact absurd heq (printed_cons_ne plain t ts)
    | cons u us =>
      rw [toList_printed_cons, toList_printed_cons] at heq
      obtain ⟨rfl, hrest⟩ := discerns_lineBy plain t u heq
      rw [ih hrest]

end Tokens

section Lines

open Text (IsControl Clear)
open Text.Quoted (string)

theorem clear_tuple {name argument : String} (hname : Clear name) (h : Clear argument) :
    Clear (tuple name argument) :=
  ((hname.append (by decide)).append h).append (by decide)

theorem clear_record {name : String} {fields : List (String × String)} (hname : Clear name)
    (h : ∀ f ∈ fields, Clear f.1 ∧ Clear f.2) : Clear (record name fields) := by
  have hfields : ∀ s ∈ fields.map fun f => f.1 ++ ": " ++ f.2, Clear s :=
    List.forall_mem_map.2 fun f hf => ((h f hf).1.append (by decide)).append (h f hf).2
  have hbody : Clear (", ".intercalate (fields.map fun f => f.1 ++ ": " ++ f.2)) :=
    .intercalate (by decide) hfields
  exact ((hname.append (by decide)).append hbody).append (by decide)

theorem clear_list {items : List String} (h : ∀ s ∈ items, Clear s) : Clear (list items) := by
  have hbody : Clear (", ".intercalate items) := .intercalate (by decide) h
  exact (Clear.append (by decide) hbody).append (by decide)

theorem clear_position (p : Position) : Clear (position p) := by
  refine clear_record (by decide) ?_
  simp only [List.forall_mem_cons]
  exact ⟨⟨by decide, Text.clear_number _⟩, ⟨by decide, Text.clear_number _⟩, List.forall_mem_nil _⟩

variable {plain : Char → Bool} (hplain : ∀ c, IsControl c → plain c = false)
include hplain

theorem clear_strings (as : List String) : Clear (list (as.map (string plain))) :=
  clear_list (List.forall_mem_map.2 fun a _ => Text.clear_string hplain a)

theorem clear_attributeKind (k : Attribute.Kind) : Clear (attributeKind plain k) := by
  have hstring := Text.clear_string hplain
  cases k <;> refine clear_record (by decide) ?_ <;> simp only [List.forall_mem_cons]
  case string key value mustaches =>
    exact ⟨⟨by decide, hstring _⟩, ⟨by decide, hstring _⟩,
      ⟨by decide, clear_strings hplain mustaches⟩, List.forall_mem_nil _⟩
  case mustache key expression =>
    exact ⟨⟨by decide, hstring _⟩, ⟨by decide, hstring _⟩, List.forall_mem_nil _⟩
  case bool key => exact ⟨⟨by decide, hstring _⟩, List.forall_mem_nil _⟩
  case variadic expression => exact ⟨⟨by decide, hstring _⟩, List.forall_mem_nil _⟩

theorem clear_attr (a : Attribute) : Clear (attr plain a) := by
  refine clear_record (by decide) ?_
  simp only [List.forall_mem_cons]
  exact ⟨⟨by decide, clear_attributeKind hplain a.kind⟩, ⟨by decide, clear_position _⟩,
    List.forall_mem_nil _⟩

theorem clear_tag {word : String} (hword : Clear word) (name : String)
    (attributes : List Attribute) : Clear (record word
      [("name", string plain name), ("attributes", list (attributes.map (attr plain)))]) := by
  have hattributes : Clear (list (attributes.map (attr plain))) :=
    clear_list (List.forall_mem_map.2 fun a _ => clear_attr hplain a)
  refine clear_record hword ?_
  simp only [List.forall_mem_cons]
  exact ⟨⟨by decide, Text.clear_string hplain name⟩, ⟨by decide, hattributes⟩,
    List.forall_mem_nil _⟩

theorem clear_tokenKind (k : Token.Kind) : Clear (tokenKind plain k) := by
  have hstring := Text.clear_string hplain
  cases k with
  | endOfInput => exact (by decide : Clear "EndOfInput")
  | startTag name attributes => exact clear_tag hplain (by decide) name attributes
  | selfClosingTag name attributes => exact clear_tag hplain (by decide) name attributes
  | text data => exact clear_tuple (by decide) (hstring data)
  | mustache expression => exact clear_tuple (by decide) (hstring expression)
  | comment data => exact clear_tuple (by decide) (hstring data)
  | endTag name => exact clear_tuple (by decide) (hstring name)

omit hplain in
theorem clear_display (p : Position) : Clear p.display :=
  ((Text.clear_number _).append (by decide)).append (Text.clear_number _)

theorem exists_lines (ts : List Token) : ∃ ls : List String, ls.length = ts.length ∧
    printed plain ts = String.join (ls.map (· ++ "\n")) ∧
      ∀ l ∈ ls, ∀ c ∈ l.toList, IsControl c → c = '\t' := by
  refine ⟨ts.map fun t => t.position.display ++ "\t" ++ tokenKind plain t.kind, ?_, ?_, ?_⟩
  · rw [List.length_map]
  · rw [List.map_map]
    rfl
  · refine List.forall_mem_map.2 fun t _ c hc hcontrol => ?_
    rw [String.toList_append, String.toList_append, List.mem_append, List.mem_append] at hc
    rcases hc with (hc | hc) | hc
    · exact absurd hcontrol (clear_display t.position c hc)
    · exact List.mem_singleton.1 hc
    · exact absurd hcontrol (clear_tokenKind hplain t.kind c hc)

end Lines

/-- Whatever set of characters is shown as they are, so long as no control character is among them:
the tokens of a text are listed on one line each, and no text with other tokens has the same
listing.  The program shows such a set, and what it prints is that listing, whatever is logged. -/
theorem listing_unambiguous {plain : Char → Bool}
    (hplain : ∀ c, Text.IsControl c → plain c = false) {source : String} {ts : List Token}
    (h : tokens source = .ok ts) :
    (∃ ls : List String, ls.length = ts.length ∧
      printed plain ts = String.join (ls.map (· ++ "\n")) ∧
        ∀ l ∈ ls, ∀ c ∈ l.toList, Text.IsControl c → c = '\t') ∧
    (∀ source' ts', tokens source' = .ok ts' → printed plain ts' = printed plain ts → ts' = ts) ∧
    (∀ c, Text.IsControl c → Text.Quoted.isPlain c = false) ∧
    ∀ k : Cli.Call source,
      (k.outcome .tokens).code = 0 ∧
      (k.outcome .tokens).stdout = printed Text.Quoted.isPlain ts ∧
      ∀ source' ts' (k' : Cli.Call source'), tokens source' = .ok ts' →
        (k'.outcome .tokens).stdout = (k.outcome .tokens).stdout → ts' = ts := by
  refine ⟨exists_lines hplain ts, ?_, fun c => Text.isPlain_of_isControl, ?_⟩
  · intro source' ts' _ heq
    exact printed_injective plain heq
  · intro k
    have hk := k.tokens_of_ok (eq_map_of_mapM h)
    refine ⟨by rw [hk], by rw [hk]; rfl, ?_⟩
    intro source' ts' k' h' heq
    rw [hk, k'.tokens_of_ok (eq_map_of_mapM h')] at heq
    exact printed_injective _ heq

theorem listing_unambiguous_comment : ∃ plain ts, tokens "<!--\")\n9:9\tEndOfInput-->" = .ok ts ∧
    ts.map Token.kind = [.comment "\")\n9:9\tEndOfInput", .endOfInput] ∧
    printed plain ts = "1:1\tComment(\"\\\")\\n9:9\\tEndOfInput\")\n2:17\tEndOfInput\n" ∧
    ∃ ls : List String, ls.length = ts.length ∧
      printed plain ts = String.join (ls.map (· ++ "\n")) ∧
        ∀ l ∈ ls, ∀ c ∈ l.toList, Text.IsControl c → c = '\t' := by
  have hplain : ∀ c, Text.IsControl c → (!decide (Text.IsControl c)) = false := by
    intro c hc
    rw [decide_eq_true hc, Bool.not_true]
  have h : tokens "<!--\")\n9:9\tEndOfInput-->" =
      .ok [⟨.comment "\")\n9:9\tEndOfInput", ⟨0, 1⟩⟩, ⟨.endOfInput, ⟨1, 17⟩⟩] := by decide +kernel
  exact ⟨fun c => !decide (Text.IsControl c), _, h, rfl, by decide +kernel,
    (listing_unambiguous hplain h).1⟩

end Listing

end Template
