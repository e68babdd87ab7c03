import Template.Proofs.Links
import Template.Proofs.Walk

namespace Template

/-- From `id?` on, one link after the other, come `ids`, and there is no link after the last. -/
inductive Trail (link : NodeId → Option NodeId) : Option NodeId → List NodeId → Prop
  | stop : Trail link none []
  | step {id : NodeId} {ids : List NodeId} : Trail link (link id) ids →
      Trail link (some id) (id :: ids)

namespace Trail

variable {link link' : NodeId → Option NodeId} {id : NodeId} {id? : Option NodeId}
  {ids ids' : List NodeId}

theorem unique (h : Trail link id? ids) (h' : Trail link id? ids') : ids = ids' := by
  induction h generalizing ids' with
  | stop =>
    cases h'
    rfl
  | step _ ih =>
    cases h' with
    | step h' => rw [ih h']

theorem of_mem (h : Trail link id? ids) (hid : id ∈ ids) :
    ∃ before after, ids = before ++ id :: after ∧ Trail link (some id) (id :: after) := by
  induction h with
  | stop => cases hid
  | @step a ids hrest ih =>
    rcases List.mem_cons.1 hid with rfl | hid
    · exact ⟨[], ids, rfl, .step hrest⟩
    · obtain ⟨before, after, rfl, htrail⟩ := ih hid
      exact ⟨a :: before, after, rfl, htrail⟩

theorem nodup (h : Trail link id? ids) : ids.Nodup := by
  induction h with
  | stop => exact List.nodup_nil
  | @step a ids hrest ih =>
    refine List.nodup_cons.2 ⟨?_, ih⟩
    intro ha
    obtain ⟨before, after, hids, htrail⟩ := hrest.of_mem ha
    -- a trail that came back to `a` would be a part of itself
    have hlength := congrArg List.length (htrail.unique (.step hrest))
    rw [hids] at hlength
    simp only [List.length_cons, List.length_append] at hlength
    omega

theorem congr (h : Trail link id? ids) (hlink : ∀ id ∈ ids, link' id = link id) :
    Trail link' id? ids := by
  induction h with
  | stop => exact .stop
  | step _ ih =>
    rw [List.forall_mem_cons] at hlink
    apply Trail.step
    rw [hlink.1]
    exact ih hlink.2

theorem extend {before after : List NodeId} (h : Trail link id? (before ++ [id]))
    (hlink : ∀ a ∈ before, link' a = link a) (hafter : Trail link' (link' id) after) :
    Trail link' id? (before ++ id :: after) := by
  induction before generalizing id? with
  | nil =>
    cases h
    exact .step hafter
  | cons a before ih =>
    rw [List.forall_mem_cons] at hlink
    cases h with
    | step h =>
      apply Trail.step
      rw [hlink.1]
      exact ih h hlink.2

end Trail

namespace Tree

variable {t t' : Tree} {kids : NodeId → List NodeId} {parent child p id : NodeId}
  {ids : List NodeId}

theorem Row.trail_next {prev? : Option NodeId} (h : t.Row p prev? ids) :
    Trail t.next? ids.head? ids := by
  induction ids generalizing prev? with
  | nil => exact .stop
  | cons a ids ih =>
    apply Trail.step
    rw [h.2.2.1]
    exact ih h.2.2.2

theorem Row.trail_prev {prev? : Option NodeId} {before : List NodeId} (h : t.Row p prev? ids)
    (hbefore : Trail t.prev? prev? before) :
    Trail t.prev? (ids.getLast?.or prev?) (ids.reverse ++ before) := by
  induction ids generalizing prev? before with
  | nil => exact hbefore
  | cons a ids ih =>
    have hhead : Trail t.prev? (some a) (a :: before) := by
      apply Trail.step
      rw [h.2.1]
      exact hbefore
    have hrest := ih h.2.2.2 hhead
    rw [List.reverse_cons, List.append_assoc, List.singleton_append, List.getLast?_cons]
    cases hlast : ids.getLast? with
    | none => simpa [hlast] using hrest
    | some last => simpa [hlast] using hrest

theorem Linked.lt_size_of_parent?_eq (h : t.Linked) (hp : t.parent? id = some p) :
    p < t.size := by
  by_contra hge
  have hmem := h.mem hp
  rw [LinkedBy.kids_of_size_le h (Nat.le_of_not_lt hge)] at hmem
  cases hmem

theorem Linked.isAttached_iff (h : t.Linked) (id : NodeId) :
    t.isAttached id = true ↔ (t.parent? id).isSome = true := by
  cases hp : t.parent? id with
  | none => simp [isAttached, hp, h.free hp]
  | some p => simp [isAttached, hp]

section Lineage

theorem lineageUpTo_eq (h : Trail t.parent? (some id) ids) (fuel : Nat) :
    t.lineageUpTo fuel id = ids.take fuel := by
  induction fuel generalizing id ids with
  | zero => rfl
  | succ fuel ih =>
    cases h with
    | @step _ ids h =>
      rw [lineageUpTo, List.take_succ_cons]
      cases hp : t.parent? id with
      | none =>
        rw [hp] at h
        cases h
        rw [List.take_nil]
      | some p =>
        rw [hp] at h
        exact congrArg _ (ih h)

theorem Linked.lt_size_of_trail {id? : Option NodeId} (h : t.Linked)
    (htrail : Trail t.parent? id? ids) (hid : ∀ id ∈ id?, id < t.size) :
    ∀ id ∈ ids, id < t.size := by
  induction htrail with
  | stop => exact List.forall_mem_nil _
  | @step a ids _ ih =>
    refine List.forall_mem_cons.2 ⟨hid a rfl, ih ?_⟩
    intro p hp
    exact h.lt_size_of_parent?_eq hp

theorem Linked.length_trail_le (h : t.Linked) (htrail : Trail t.parent? (some id) ids)
    (hid : id < t.size) : ids.length ≤ t.size := by
  have hlt := h.lt_size_of_trail htrail (by rintro a ⟨⟩; exact hid)
  have hsub : ids ⊆ List.range t.size := by
    intro a ha
    exact List.mem_range.2 (hlt a ha)
  simpa using (htrail.nodup.subperm hsub).length_le

theorem Linked.lineage_eq (h : t.Linked) (htrail : Trail t.parent? (some id) ids)
    (hid : id < t.size) : t.lineage id = ids := by
  rw [lineage, lineageUpTo_eq htrail, List.take_of_length_le (h.length_trail_le htrail hid)]

end Lineage

section Depth

theorem forestTo_congr {d d' : Nat} (h : ∀ id ∈ ids, t.forestTo d [id] = t'.forestTo d' [id]) :
    t.forestTo d ids = t'.forestTo d' ids := by
  induction ids with
  | nil => cases d <;> cases d' <;> rfl
  | cons id ids ih =>
    rw [List.forall_mem_cons] at h
    rw [← List.singleton_append, forestTo_append, forestTo_append, h.1, ih h.2]

theorem forestTo_of_size_le (h : t.size ≤ id) (d : Nat) : t.forestTo d [id] = .nil := by
  have hnode : t.node? id = none := by
    rw [node?, Array.getElem?_eq_none h, Option.map_none]
  cases d with
  | zero => rfl
  | succ d => rw [forestTo, List.foldr_cons, hnode, List.foldr_nil]

theorem Linked.forestTo_eq {d d' : Nat} (h : t.Linked) (htrail : Trail t.parent? (some id) ids)
    (hid : id < t.size) (hd : t.size < d + ids.length) (hd' : t.size < d' + ids.length) :
    t.forestTo d [id] = t.forestTo d' [id] := by
  have hlength := h.length_trail_le htrail hid
  induction d generalizing d' id ids with
  | zero => omega
  | succ d ih =>
    cases d' with
    | zero => omega
    | succ d' =>
      have hbelow : t.forestTo d (t.children id) = t.forestTo d' (t.children id) := by
        apply forestTo_congr
        intro child hchild
        have hparent := h.parent?_of_mem hchild
        have hup : Trail t.parent? (some child) (child :: ids) := by
          apply Trail.step
          rw [hparent]
          exact htrail
        have hlt := h.lt_size_of_mem hchild
        refine ih hup hlt ?_ ?_ (h.length_trail_le hup hlt)
        · rw [List.length_cons]
          omega
        · rw [List.length_cons]
          omega
      rw [forestTo, forestTo, List.foldr_cons, List.foldr_cons, hbelow]
      rfl

end Depth

theorem append_eq_ok (h : t.append parent child = .ok t') :
    child ≠ root ∧ parent ≠ child ∧ child < t.size ∧ t.isAttached child = false ∧
      parent < t.size ∧ child ∉ t.lineage parent ∧ t' = t.attach parent child := by
  unfold append at h
  split at h
  · cases h
  split at h
  · cases h
  split at h
  · cases h
  split at h
  · cases h
  split at h
  · cases h
  split at h
  · cases h
  rename_i hroot hself hc hattached hp hline
  cases h
  exact ⟨hroot, hself, Nat.lt_of_not_le hc, Bool.eq_false_iff.2 hattached, Nat.lt_of_not_le hp,
    hline, rfl⟩

theorem link_replace {n : Node} {g : Cell → Option NodeId}
    (hg : ∀ c : Cell, g { c with node := n } = g c) (a : NodeId) :
    (t.update id fun c => { c with node := n }).cells[a]?.bind g = t.cells[a]?.bind g := by
  rw [cells_update, Option.bind_map]
  congr 1
  funext c
  by_cases ha : a = id
  · rw [Function.comp_apply, if_pos ha, hg]
  · rw [Function.comp_apply, if_neg ha]

structure Grounded (t : Tree) : Prop where
  linked : t.Linked
  root : t.parent? root = none
  climbs : ∀ id, ∃ ids, Trail t.parent? (some id) ids

/-- What the links of a tree must be to make it a forest. -/
structure WellFormed (t : Tree) : Prop where
  root : t.parent? root = none ∧ t.prev? root = none ∧ t.next? root = none
  lineage : ∀ id < t.size, Trail t.parent? (some id) (t.lineage id) ∧
    (t.lineage id).length ≤ t.size
  children : ∀ p, Trail t.next? (t.firstChild? p) (t.children p) ∧
    Trail t.prev? (t.lastChild? p) (t.children p).reverse ∧
    t.lastChild? p = (t.children p).getLast? ∧ (t.children p).Nodup ∧
    ∀ id, id ∈ t.children p ↔ t.parent? id = some p
  subtree : ∀ id, ∀ depth ≥ t.size, t.forestTo depth [id] = t.subtree id
  attached : ∀ id, t.isAttached id = true ↔ (t.parent? id).isSome = true

namespace Grounded

theorem empty : empty.Grounded where
  linked := linked_empty
  root := rfl
  climbs := by
    intro id
    refine ⟨[id], .step ?_⟩
    rw [show Tree.empty.parent? id = none by cases id <;> rfl]
    exact .stop

theorem wellFormed (h : t.Grounded) : t.WellFormed where
  root := ⟨h.root, h.linked.free h.root⟩
  lineage := by
    intro id hid
    obtain ⟨ids, htrail⟩ := h.climbs id
    rw [h.linked.lineage_eq htrail hid]
    exact ⟨htrail, h.linked.length_trail_le htrail hid⟩
  children := by
    intro p
    have hrow := h.linked.row p
    refine ⟨?_, ?_, h.linked.last p, h.linked.nodup p, ?_⟩
    · rw [h.linked.first]
      exact hrow.trail_next
    · simpa [h.linked.last] using hrow.trail_prev .stop
    · exact fun id => ⟨h.linked.parent?_of_mem, h.linked.mem⟩
  subtree := by
    intro id depth hdepth
    obtain ⟨ids, htrail⟩ := h.climbs id
    have hpos : 0 < ids.length := by
      cases htrail with
      | step _ => exact Nat.succ_pos _
    by_cases hid : id < t.size
    · exact h.linked.forestTo_eq htrail hid (by omega) (by omega)
    · rw [subtree, forestTo_of_size_le (Nat.le_of_not_lt hid),
        forestTo_of_size_le (Nat.le_of_not_lt hid)]
  attached := h.linked.isAttached_iff

theorem push (h : t.Grounded) (n : Node) : (t.push n).2.Grounded where
  linked := h.linked.push n
  root := by rw [parent?_push, h.root]
  climbs := by
    intro id
    obtain ⟨ids, htrail⟩ := h.climbs id
    exact ⟨ids, htrail.congr fun a _ => parent?_push a⟩

theorem attach (h : t.Grounded) (hroot : child ≠ Tree.root) (hp : parent < t.size)
    (hc : child < t.size) (hfree : t.parent? child = none) (hline : child ∉ t.lineage parent) :
    (t.attach parent child).Grounded where
  linked := h.linked.attach hp hc hfree
  root := by rw [parent?_attach hc, if_neg hroot.symm, h.root]
  climbs := by
    intro id
    have hother : ∀ a ≠ child, (t.attach parent child).parent? a = t.parent? a := by
      intro a ha
      rw [parent?_attach hc, if_neg ha]
    obtain ⟨ids, htrail⟩ := h.climbs id
    by_cases hmem : child ∈ ids
    · -- the way up ended at the child, and goes on from the parent now
      obtain ⟨ups, hups⟩ := h.climbs parent
      rw [h.linked.lineage_eq hups hp] at hline
      have hups' : Trail (t.attach parent child).parent? (some parent) ups := by
        apply hups.congr
        intro a ha
        apply hother
        rintro rfl
        exact hline ha
      obtain ⟨before, after, rfl, hchild⟩ := htrail.of_mem hmem
      have hafter : after = [] := by
        cases hchild with
        | step hchild =>
          rw [hfree] at hchild
          cases hchild
          rfl
      subst hafter
      refine ⟨before ++ child :: ups, htrail.extend ?_ ?_⟩
      · intro a ha
        apply hother
        rintro rfl
        exact (List.nodup_append.1 htrail.nodup).2.2 a ha a List.mem_cons_self rfl
      · rw [parent?_attach hc, if_pos rfl]
        exact hups'
    · refine ⟨ids, htrail.congr ?_⟩
      intro a ha
      apply hother
      rintro rfl
      exact hmem ha

theorem append (h : t.Grounded) (happend : t.append parent child = .ok t') : t'.Grounded := by
  obtain ⟨hroot, -, hc, hattached, hp, hline, rfl⟩ := append_eq_ok happend
  have hfree : t.parent? child = none := by
    simpa [hattached] using h.linked.isAttached_iff child
  exact h.attach hroot hp hc hfree hline

theorem replace (h : t.Grounded) {n : Node} (hreplace : t.replace? id n = some t') :
    t'.Grounded := by
  unfold replace? at hreplace
  split at hreplace
  · cases hreplace
    have hparent : ∀ a, (t.update id fun c => { c with node := n }).parent? a = t.parent? a :=
      link_replace fun _ => rfl
    have hlinked := LinkedBy.of_links h.linked hparent (link_replace fun _ => rfl)
      (link_replace fun _ => rfl) (link_replace fun _ => rfl) (link_replace fun _ => rfl)
    refine ⟨hlinked.linked, (hparent _).trans h.root, ?_⟩
    intro a
    obtain ⟨ids, htrail⟩ := h.climbs a
    exact ⟨ids, htrail.congr fun a _ => hparent a⟩
  · cases hreplace

end Grounded

section Edits

/-- A change to a tree.  A copy is of a node alone, without its links. -/
inductive Edit
  | push (n : Node)
  | copy (id : NodeId)
  | append (parent child : NodeId)
  | replace (id : NodeId) (n : Node)

def edit (t : Tree) : Edit → Tree
  | .push n => (t.push n).2
  | .copy id =>
    match t.node? id with
    | some n => (t.push n).2
    | none => t
  | .append parent child =>
    match t.append parent child with
    | .ok t' => t'
    | .error _ => t
  | .replace id n => (t.replace? id n).getD t

def edits (t : Tree) (es : List Edit) : Tree := es.foldl edit t

theorem Grounded.edit (h : t.Grounded) (e : Edit) : (t.edit e).Grounded := by
  cases e with
  | push n => exact h.push n
  | copy id =>
    rw [Tree.edit]
    cases t.node? id with
    | some n => exact h.push n
    | none => exact h
  | append parent child =>
    rw [Tree.edit]
    cases happend : t.append parent child with
    | ok t' => exact h.append happend
    | error v => exact h
  | replace id n =>
    rw [Tree.edit]
    cases hreplace : t.replace? id n with
    | some t' => exact h.replace hreplace
    | none => exact h

theorem Grounded.edits (h : t.Grounded) (es : List Edit) : (t.edits es).Grounded := by
  induction es generalizing t with
  | nil => exact h
  | cons e es ih => exact ih (h.edit e)

/-- Whatever is done to a tree, it stays a forest of which the root is one tree. -/
theorem wellFormed_edits (es : List Edit) : (Tree.empty.edits es).WellFormed :=
  (Grounded.empty.edits es).wellFormed

end Edits

end Tree

end Template
