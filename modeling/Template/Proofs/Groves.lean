import Template.Proofs.Moving

namespace Template

theorem Forest.append_cons_ne_nil (f : Forest) (n : Node) (w g : Forest) :
    f ++ .cons n w g ≠ .nil := by
  cases f <;> exact Forest.noConfusion

theorem Forest.concat_inj {f f' : Forest} {n n' : Node} {w w' : Forest}
    (h : f ++ .cons n w .nil = f' ++ .cons n' w' .nil) : f = f' ∧ n = n' ∧ w = w' := by
  induction f generalizing f' with
  | nil =>
    cases f' with
    | nil =>
      cases h
      exact ⟨rfl, rfl, rfl⟩
    | cons node below beside =>
      rw [nil_append, cons_append, Forest.cons.injEq] at h
      exact absurd h.2.2.symm (append_cons_ne_nil _ _ _ _)
  | cons node below beside _ ih =>
    cases f' with
    | nil =>
      rw [nil_append, cons_append, Forest.cons.injEq] at h
      exact absurd h.2.2 (append_cons_ne_nil _ _ _ _)
    | cons node' below' beside' =>
      rw [cons_append, cons_append, Forest.cons.injEq] at h
      obtain ⟨rfl, rfl, hbeside⟩ := h
      obtain ⟨rfl, rfl, rfl⟩ := ih hbeside
      exact ⟨rfl, rfl, rfl⟩

def Forest.count : Forest → Nat
  | .nil => 0
  | .cons _ below beside => 1 + below.count + beside.count

@[simp] theorem Forest.count_append (f g : Forest) : (f ++ g).count = f.count + g.count := by
  induction f with
  | nil => simp [count]
  | cons node below beside _ ih => simp [count, ih, Nat.add_assoc]

@[simp] theorem Forest.count_move (base : Position) (f : Forest) :
    (f.move base).count = f.count := by
  induction f with
  | nil => rfl
  | cons node below beside ihw ihb => simp [move, count, ihw, ihb]

namespace Grove

variable {base : Position} {k : Nat} {t t' : Tree} {g g' : Grove}

def append (g : Grove) : Grove → Grove
  | nil => g
  | snoc before id node below => snoc (g.append before) id node below

def place (base : Position) (k : Nat) : Grove → Grove
  | nil => nil
  | snoc before id node below =>
    snoc (before.place base k) (id + k) (node.move base) (below.place base k)

theorem roots_append : (g.append g').roots = g.roots ++ g'.roots := by
  induction g' with
  | nil => simp [append, roots]
  | snoc before id node below ihb _ => simp [append, roots, ihb]

theorem ids_append : (g.append g').ids = g.ids ++ g'.ids := by
  induction g' with
  | nil => simp [append, ids]
  | snoc before id node below ihb _ => simp [append, ids, ihb]

theorem toForest_append : (g.append g').toForest = g.toForest ++ g'.toForest := by
  induction g' with
  | nil => simp [append, toForest]
  | snoc before id node below ihb _ => simp [append, toForest, ihb, Forest.append_assoc]

theorem in_append : (g.append g').In t ↔ g.In t ∧ g'.In t := by
  induction g' with
  | nil => simp [append, In]
  | snoc before id node below ihb _ => simp [append, In, ihb, and_assoc]

theorem roots_place : (g.place base k).roots = g.roots.map (· + k) := by
  induction g with
  | nil => rfl
  | snoc before id node below ihb _ => simp [place, roots, ihb]

theorem ids_place : (g.place base k).ids = g.ids.map (· + k) := by
  induction g with
  | nil => rfl
  | snoc before id node below ihb ihw => simp [place, ids, ihb, ihw]

theorem toForest_place : (g.place base k).toForest = g.toForest.move base := by
  induction g with
  | nil => rfl
  | snoc before id node below ihb ihw =>
    simp [place, toForest, ihb, ihw, Forest.move_append, Forest.move]

theorem length_ids (g : Grove) : g.ids.length = g.toForest.count := by
  induction g with
  | nil => rfl
  | snoc before id node below ihb ihw => simp [ids, toForest, Forest.count, ihb, ihw, Nat.add_comm]

theorem eq_of_toForest (h : g.toForest = g'.toForest) (hids : g.ids = g'.ids) : g = g' := by
  induction g generalizing g' with
  | nil =>
    cases g' with
    | nil => rfl
    | snoc before id node below => simp [ids] at hids
  | snoc before id node below ihb ihw =>
    cases g' with
    | nil => simp [ids] at hids
    | snoc before' id' node' below' =>
      obtain ⟨hbefore, rfl, hbelow⟩ := Forest.concat_inj h
      have hlength : (id :: below.ids).length = (id' :: below'.ids).length := by
        rw [List.length_cons, List.length_cons, length_ids, length_ids, hbelow]
      obtain ⟨hbids, htail⟩ := List.append_inj' hids hlength
      obtain ⟨rfl, hwids⟩ := List.cons.inj htail
      rw [ihb hbefore hbids, ihw hbelow hwids]

@[simp] theorem place_zero (g : Grove) : g.place {} 0 = g := by
  induction g with
  | nil => rfl
  | snoc before id node below ihb ihw => simp [place, ihb, ihw]

theorem roots_subset (g : Grove) : g.roots ⊆ g.ids := by
  induction g with
  | nil => exact List.nil_subset _
  | snoc before id node below ihb _ =>
    intro id' hid
    rw [roots, List.mem_append, List.mem_singleton] at hid
    rw [ids, List.mem_append, List.mem_cons]
    exact hid.imp (ihb ·) .inl

theorem In.moved (h : g.In t) (h' : (g.place base k).In t') :
    ∀ id ∈ g.ids, t'.node? (id + k) = (t.node? id).map (Node.move base) ∧
      t'.children (id + k) = (t.children id).map (· + k) := by
  induction g with
  | nil => exact fun id hid => nomatch hid
  | snoc before id node below ihb ihw =>
    obtain ⟨hbefore, hnode, hkids, hbelow⟩ := h
    obtain ⟨hbefore', hnode', hkids', hbelow'⟩ := h'
    rw [ids, List.forall_mem_append, List.forall_mem_cons]
    refine ⟨ihb hbefore hbefore', ⟨?_, ?_⟩, ihw hbelow hbelow'⟩
    · rw [hnode', hnode, Option.map_some]
    · rw [hkids', hkids, roots_place]

theorem In.children_subset (h : g.In t) : ∀ id ∈ g.ids, t.children id ⊆ g.ids := by
  induction g with
  | nil => exact fun id hid => nomatch hid
  | snoc before id node below ihb ihw =>
    obtain ⟨hbefore, -, hkids, hbelow⟩ := h
    rw [ids, List.forall_mem_append, List.forall_mem_cons, hkids]
    have hmine : below.ids ⊆ before.ids ++ id :: below.ids := fun c hc =>
      List.mem_append_right _ (List.mem_cons_of_mem _ hc)
    refine ⟨fun id' hid => ?_, List.Subset.trans (roots_subset below) hmine, fun id' hid => ?_⟩
    · exact List.Subset.trans (ihb hbefore id' hid) (List.subset_append_left _ _)
    · exact List.Subset.trans (ihw hbelow id' hid) hmine

theorem In.exists_parent (h : g.In t) :
    ∀ id ∈ g.ids, id ∈ g.roots ∨ ∃ p ∈ g.ids, id ∈ t.children p := by
  induction g with
  | nil => exact fun id hid => nomatch hid
  | snoc before id node below ihb ihw =>
    obtain ⟨hbefore, -, hkids, hbelow⟩ := h
    intro id' hid
    rw [ids, List.mem_append, List.mem_cons] at hid
    simp only [roots, ids, List.mem_append, List.mem_cons]
    rcases hid with hid | rfl | hid
    · rcases ihb hbefore id' hid with hroot | ⟨p, hp, hmem⟩
      · exact .inl (.inl hroot)
      · exact .inr ⟨p, .inl hp, hmem⟩
    · exact .inl (.inr (.inl rfl))
    · rcases ihw hbelow id' hid with hroot | ⟨p, hp, hmem⟩
      · exact .inr ⟨id, .inr (.inl rfl), hkids ▸ hroot⟩
      · exact .inr ⟨p, .inr (.inr hp), hmem⟩

end Grove

end Template
