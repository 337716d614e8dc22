import HttpdConf.Tree
import Mathlib.Data.List.Nodup
import Mathlib.Data.List.Perm.Basic

/-!
# Nodes and the blocks around them

In a forest in which every number is given once and every child is linked to its block, a node is
found by its number, and its lineage are the blocks that it is nested in.

## Main definitions

* `Tree.encloses`: whether a node is strictly inside another
* `Forest.Tidy`: numbers are unique, and children are linked to their blocks

## Main results

* `Forest.Tidy.lineage_perm`: the lineage of a node are the blocks that enclose it
-/

namespace HttpdConf

/-- Whether the node with a number is strictly inside. -/
def Tree.encloses (id : NodeId) (t : Tree) : Bool := (Forest.nodes t.children).any (·.id == id)

/-! ## Membership -/

variable {t u v : Tree} {f : Forest} {id : NodeId}

theorem Tree.nodes_eq (t : Tree) : t.nodes = t :: Forest.nodes t.children := by
  cases t <;> simp [Tree.nodes, Tree.children, Forest.nodes]

theorem Tree.self_mem_nodes (t : Tree) : t ∈ t.nodes := by
  rw [t.nodes_eq]
  exact List.mem_cons_self ..

@[simp]
theorem Forest.nodes_nil : Forest.nodes [] = [] := by rw [Forest.nodes]

@[simp]
theorem Forest.nodes_cons (t : Tree) (f : Forest) :
    Forest.nodes (t :: f) = t.nodes ++ Forest.nodes f := by
  rw [Forest.nodes]

theorem Tree.nodes_of_children_eq_nil (h : t.children = []) : t.nodes = [t] := by
  rw [t.nodes_eq, h, Forest.nodes_nil]

theorem Forest.nodes_append (f g : Forest) :
    Forest.nodes (f ++ g) = Forest.nodes f ++ Forest.nodes g := by
  induction f with
  | nil => simp
  | cons t f ih => simp [ih]

theorem Forest.nodes_eq_flatMap (f : Forest) : Forest.nodes f = f.flatMap Tree.nodes := by
  induction f with
  | nil => simp
  | cons t f ih => simp [ih]

theorem Forest.nodes_perm {f g : Forest} (h : f.Perm g) :
    (Forest.nodes f).Perm (Forest.nodes g) := by
  rw [Forest.nodes_eq_flatMap, Forest.nodes_eq_flatMap]
  exact h.flatMap_right _

/-- The tops stand in order among the nodes. -/
theorem Forest.sublist_nodes (f : Forest) : f.Sublist (Forest.nodes f) := by
  induction f with
  | nil => simp
  | cons t f ih =>
    rw [Forest.nodes_cons, t.nodes_eq, List.cons_append]
    exact (ih.trans (List.sublist_append_right ..)).cons_cons _

theorem Forest.mem_nodes : u ∈ Forest.nodes f ↔ ∃ t ∈ f, u ∈ t.nodes := by
  induction f with
  | nil => simp
  | cons t f ih => simp [ih]

mutual
/-- The nodes of a node stand together among all nodes. -/
theorem Tree.nodes_sublist {u : Tree} (t : Tree) (hu : u ∈ t.nodes) :
    u.nodes.Sublist t.nodes := by
  match t with
  | .comment core text =>
    obtain rfl : u = .comment core text := by simpa [Tree.nodes] using hu
    exact .refl _
  | .directive core statement =>
    obtain rfl : u = .directive core statement := by simpa [Tree.nodes] using hu
    exact .refl _
  | .block core statement children =>
    rw [Tree.nodes] at hu
    rcases List.mem_cons.1 hu with rfl | hu
    · exact .refl _
    · rw [Tree.nodes]
      exact .cons _ (Forest.nodes_sublist children hu)

theorem Forest.nodes_sublist {u : Tree} (f : Forest) (hu : u ∈ Forest.nodes f) :
    u.nodes.Sublist (Forest.nodes f) := by
  match f with
  | [] => simp at hu
  | t :: f =>
    rw [Forest.nodes_cons] at hu ⊢
    rcases List.mem_append.1 hu with hu | hu
    · exact (Tree.nodes_sublist t hu).trans (List.sublist_append_left ..)
    · exact (Forest.nodes_sublist f hu).trans (List.sublist_append_right ..)
end

theorem Tree.mem_nodes_of_mem_children (hu : u ∈ Forest.nodes t.children) : u ∈ t.nodes := by
  rw [t.nodes_eq]
  exact List.mem_cons_of_mem _ hu

theorem Forest.mem_nodes_of_mem (ht : t ∈ f) : t ∈ Forest.nodes f :=
  Forest.mem_nodes.2 ⟨t, ht, t.self_mem_nodes⟩

theorem Forest.mem_nodes_of_below (ht : t ∈ Forest.nodes f) (hu : u ∈ Forest.nodes t.children) :
    u ∈ Forest.nodes f :=
  (Forest.nodes_sublist f ht).subset (Tree.mem_nodes_of_mem_children hu)

theorem Forest.mem_nodes_of_child (ht : t ∈ Forest.nodes f) (hu : u ∈ t.children) :
    u ∈ Forest.nodes f :=
  Forest.mem_nodes_of_below ht (Forest.mem_nodes_of_mem hu)

theorem Tree.mem_nodes_of_child {v : Tree} (hu : u ∈ t.nodes) (hv : v ∈ u.children) : v ∈ t.nodes :=
  (Tree.nodes_sublist t hu).subset (Tree.mem_nodes_of_mem_children (Forest.mem_nodes_of_mem hv))

mutual
/-- A node is at the top or a child of another one. -/
theorem Tree.eq_or_mem_children {u : Tree} (t : Tree) (hu : u ∈ t.nodes) :
    u = t ∨ ∃ v ∈ t.nodes, u ∈ v.children := by
  match t with
  | .comment core text => exact .inl (by simpa [Tree.nodes] using hu)
  | .directive core statement => exact .inl (by simpa [Tree.nodes] using hu)
  | .block core statement children =>
    rw [Tree.nodes] at hu ⊢
    rcases List.mem_cons.1 hu with rfl | hu
    · exact .inl rfl
    · refine .inr ?_
      rcases Forest.mem_or_mem_children children hu with hu | ⟨v, hv, hu⟩
      · exact ⟨_, List.mem_cons_self .., hu⟩
      · exact ⟨v, List.mem_cons_of_mem _ hv, hu⟩

theorem Forest.mem_or_mem_children {u : Tree} (f : Forest) (hu : u ∈ Forest.nodes f) :
    u ∈ f ∨ ∃ v ∈ Forest.nodes f, u ∈ v.children := by
  match f with
  | [] => simp at hu
  | t :: f =>
    rw [Forest.nodes_cons] at hu ⊢
    rcases List.mem_append.1 hu with hu | hu
    · rcases Tree.eq_or_mem_children t hu with rfl | ⟨v, hv, hu⟩
      · exact .inl (List.mem_cons_self ..)
      · exact .inr ⟨v, List.mem_append_left _ hv, hu⟩
    · rcases Forest.mem_or_mem_children f hu with hu | ⟨v, hv, hu⟩
      · exact .inl (List.mem_cons_of_mem _ hu)
      · exact .inr ⟨v, List.mem_append_right _ hv, hu⟩
end

theorem Tree.mem_of_find?_id {ts : List Tree} (h : ts.find? (·.id == id) = some t) :
    t ∈ ts ∧ t.id = id :=
  ⟨List.mem_of_find?_eq_some h, by simpa using List.find?_some h⟩

theorem Forest.mem_nodes_of_find? (h : f.find? id = some t) : t ∈ Forest.nodes f ∧ t.id = id := by
  rw [Forest.find?_eq] at h
  exact Tree.mem_of_find?_id h

theorem Tree.encloses_iff : t.encloses id = true ↔ ∃ u ∈ Forest.nodes t.children, u.id = id := by
  simp [Tree.encloses]

/-- No node encloses a number that is not there. -/
theorem Forest.filter_encloses_eq_nil (h : ∀ u ∈ Forest.nodes f, u.id ≠ id) :
    (Forest.nodes f).filter (Tree.encloses id) = [] := by
  rw [List.filter_eq_nil_iff]
  intro u hu hid
  obtain ⟨v, hv, hvid⟩ := Tree.encloses_iff.1 hid
  exact h v (Forest.mem_nodes_of_below hu hv) hvid

/-! ## Trails -/

mutual
/-- The trail of a node are the nodes that enclose it. -/
theorem Tree.trailFrom?_eq_some {around l : List Tree} {id : NodeId} {n : Tree} (t : Tree)
    (hnodup : (t.nodes.map Tree.id).Nodup) (h : t.trailFrom? around id = some (n, l)) :
    l = (t.nodes.filter (Tree.encloses id)).reverse ++ around := by
  match t with
  | .comment core text =>
    simp only [Tree.trailFrom?] at h
    split at h
    · obtain ⟨-, rfl⟩ := Prod.mk.inj (Option.some.inj h)
      simp [Tree.nodes, Tree.encloses, Tree.children]
    · simp at h
  | .directive core statement =>
    simp only [Tree.trailFrom?] at h
    split at h
    · obtain ⟨-, rfl⟩ := Prod.mk.inj (Option.some.inj h)
      simp [Tree.nodes, Tree.encloses, Tree.children]
    · simp at h
  | .block core statement children =>
    rw [Tree.nodes, List.map_cons, List.nodup_cons] at hnodup
    obtain ⟨hfresh, hnodup⟩ := hnodup
    simp only [Tree.trailFrom?] at h
    split at h
    · rename_i hid
      obtain ⟨-, rfl⟩ := Prod.mk.inj (Option.some.inj h)
      -- what is inside has other numbers, so nothing encloses the block itself
      have hinside : ∀ u ∈ Forest.nodes children, u.id ≠ id := by
        intro u hu huid
        refine hfresh (List.mem_map.2 ⟨u, hu, ?_⟩)
        rw [huid, Tree.id, Tree.core]
        exact (beq_iff_eq.1 hid).symm
      have htop : Tree.encloses id (.block core statement children) = false := by
        rw [Bool.eq_false_iff]
        intro hencloses
        obtain ⟨v, hv, hvid⟩ := Tree.encloses_iff.1 hencloses
        exact hinside v hv hvid
      rw [Tree.nodes, List.filter_cons, htop, Forest.filter_encloses_eq_nil hinside]
      simp
    · have htrail := Forest.trailFrom?_eq_some children hnodup h
      have hfound := Forest.fst_trailFrom? (.block core statement children :: around) id children
      rw [h] at hfound
      have htop : Tree.encloses id (.block core statement children) = true := by
        exact Tree.encloses_iff.2 ⟨n, Tree.mem_of_find?_id hfound.symm⟩
      rw [Tree.nodes, List.filter_cons, htop, htrail]
      simp

theorem Forest.trailFrom?_eq_some {around l : List Tree} {id : NodeId} {n : Tree} (f : Forest)
    (hnodup : ((Forest.nodes f).map Tree.id).Nodup)
    (h : Forest.trailFrom? around id f = some (n, l)) :
    l = ((Forest.nodes f).filter (Tree.encloses id)).reverse ++ around := by
  match f with
  | [] => simp [Forest.trailFrom?] at h
  | t :: f =>
    rw [Forest.nodes_cons, List.map_append, List.nodup_append] at hnodup
    obtain ⟨ht, hf, hdisjoint⟩ := hnodup
    have hfound := Tree.fst_trailFrom? around id t
    rw [Forest.nodes_cons, List.filter_append]
    rw [Forest.trailFrom?] at h
    split at h
    · -- the node is in the first tree, so its number is in no other one
      rename_i trail htrail
      obtain rfl := Option.some.inj h
      rw [htrail] at hfound
      obtain ⟨hmem, hn⟩ := Tree.mem_of_find?_id hfound.symm
      have hothers : ∀ u ∈ Forest.nodes f, u.id ≠ id := by
        intro u hu huid
        exact hdisjoint n.id (List.mem_map_of_mem hmem) u.id (List.mem_map_of_mem hu)
          (hn.trans huid.symm)
      rw [Tree.trailFrom?_eq_some t ht htrail, Forest.filter_encloses_eq_nil hothers,
        List.append_nil]
    · -- the number is not in the first tree, so nothing there encloses it
      rename_i htrail
      rw [htrail] at hfound
      have hothers : ∀ u ∈ Forest.nodes [t], u.id ≠ id := by
        intro u hu
        simpa using List.find?_eq_none.1 hfound.symm u (by simpa using hu)
      have hnil := Forest.filter_encloses_eq_nil hothers
      rw [Forest.nodes_cons, Forest.nodes_nil, List.append_nil] at hnil
      rw [hnil, List.nil_append]
      exact Forest.trailFrom?_eq_some f hf h
end

/-! ## Tidy forests -/

/-- Where every number is given once, a node is found by its number. -/
theorem Tree.find?_id_eq {ts : List Tree} (hnodup : (ts.map Tree.id).Nodup) (ht : t ∈ ts) :
    ts.find? (·.id == t.id) = some t := by
  cases hfound : ts.find? (·.id == t.id) with
  | none => simpa using List.find?_eq_none.1 hfound t ht
  | some u =>
    obtain ⟨hu, hid⟩ := Tree.mem_of_find?_id hfound
    rw [List.inj_on_of_nodup_map hnodup hu ht hid]

/-- Every number is given once, and every child is linked to its block. -/
structure Forest.Tidy (f : Forest) : Prop where
  nodup : ((Forest.nodes f).map Tree.id).Nodup
  linked : ∀ t ∈ Forest.nodes f, ∀ u ∈ t.children, u.core.ancestor = some t.id

namespace Forest.Tidy

variable {r : Tree}

/-- Nodes of the same number are the same. -/
theorem eq_of_id_eq (h : f.Tidy) (ht : t ∈ Forest.nodes f) (hu : u ∈ Forest.nodes f)
    (hid : t.id = u.id) : t = u :=
  List.inj_on_of_nodup_map h.nodup ht hu hid

/-- A number is given once among the nodes of a node. -/
theorem nodup_nodes (h : f.Tidy) (ht : t ∈ Forest.nodes f) : (t.nodes.map Tree.id).Nodup :=
  ((Forest.nodes_sublist f ht).map Tree.id).nodup h.nodup

theorem find?_eq (h : f.Tidy) (ht : t ∈ Forest.nodes f) : f.find? t.id = some t := by
  rw [Forest.find?_eq]
  exact Tree.find?_id_eq h.nodup ht

/-- The blocks around a node are those that enclose it. -/
theorem trail?_eq (h : f.Tidy) (ht : t ∈ Forest.nodes f) :
    f.trail? t.id = some (t, ((Forest.nodes f).filter (Tree.encloses t.id)).reverse) := by
  have hfind := h.find?_eq ht
  obtain ⟨⟨n, l⟩, htrail, rfl⟩ := Option.map_eq_some_iff.1 hfind
  rw [htrail, Forest.trailFrom?_eq_some f h.nodup htrail, List.append_nil]

/-- A trail leads to the node with the number, by way of all that encloses it. -/
theorem trail?_eq_some (h : f.Tidy) {block : Tree} {around : List Tree}
    (htrail : f.trail? id = some (block, around)) :
    block ∈ Forest.nodes f ∧ block.id = id ∧
      around = ((Forest.nodes f).filter (Tree.encloses block.id)).reverse := by
  obtain ⟨hblock, rfl⟩ : block ∈ Forest.nodes f ∧ block.id = id :=
    Forest.mem_nodes_of_find? (by rw [Forest.find?, htrail]; rfl)
  rw [h.trail?_eq hblock] at htrail
  exact ⟨hblock, rfl, (Prod.mk.inj (Option.some.inj htrail)).2.symm⟩

/-- What encloses a node is in the tree of the node. -/
theorem filter_encloses_eq (h : f.Tidy) (hr : r ∈ f) (ht : t ∈ r.nodes) :
    (Forest.nodes f).filter (Tree.encloses t.id) = r.nodes.filter (Tree.encloses t.id) := by
  -- the trees before and after have other numbers, so nothing in them encloses the node
  obtain ⟨before, after, rfl⟩ := List.append_of_mem hr
  have hnodup := h.nodup
  rw [Forest.nodes_append, Forest.nodes_cons, List.map_append, List.map_append,
    List.nodup_append, List.nodup_append] at hnodup
  obtain ⟨-, ⟨-, -, hafter⟩, hbefore⟩ := hnodup
  have hid : t.id ∈ r.nodes.map Tree.id := List.mem_map_of_mem ht
  have hnone : ∀ u ∈ Forest.nodes before, u.id ≠ t.id := fun u hu =>
    hbefore u.id (List.mem_map_of_mem hu) t.id (List.mem_append_left _ hid)
  have hnone' : ∀ u ∈ Forest.nodes after, u.id ≠ t.id := fun u hu heq =>
    hafter t.id hid u.id (List.mem_map_of_mem hu) heq.symm
  rw [Forest.nodes_append, Forest.nodes_cons, List.filter_append, List.filter_append,
    Forest.filter_encloses_eq_nil hnone, Forest.filter_encloses_eq_nil hnone', List.nil_append,
    List.append_nil]

/-- No node encloses itself. -/
theorem not_encloses_self (h : f.Tidy) (ht : t ∈ Forest.nodes f) : t.encloses t.id = false := by
  have hnodup := h.nodup_nodes ht
  rw [t.nodes_eq, List.map_cons, List.nodup_cons] at hnodup
  rw [Bool.eq_false_iff]
  intro hencloses
  obtain ⟨u, hu, hid⟩ := Tree.encloses_iff.1 hencloses
  exact hnodup.1 (List.mem_map.2 ⟨u, hu, hid⟩)

/-- The nodes around a child are its block and those around the block. -/
theorem encloses_child_iff (h : f.Tidy) (ht : t ∈ Forest.nodes f) (hu : u ∈ t.children)
    (hv : v ∈ Forest.nodes f) : v.encloses u.id = true ↔ v = t ∨ v.encloses t.id = true := by
  have hin : ∀ x ∈ Forest.nodes v.children, x ∈ Forest.nodes f := fun x hx =>
    Forest.mem_nodes_of_below hv hx
  have hunode : u ∈ Forest.nodes f := Forest.mem_nodes_of_child ht hu
  constructor
  · intro hencloses
    obtain ⟨x, hx, hxid⟩ := Tree.encloses_iff.1 hencloses
    obtain rfl := h.eq_of_id_eq (hin x hx) hunode hxid
    -- a node has one link, so the block it is a child of inside `v` is `t`
    have hlink := h.linked t ht x hu
    rcases Forest.mem_or_mem_children _ hx with hx | ⟨y, hy, hxy⟩
    · left
      exact h.eq_of_id_eq hv ht (Option.some.inj ((h.linked v hv x hx).symm.trans hlink))
    · right
      obtain rfl := h.eq_of_id_eq (hin y hy) ht
        (Option.some.inj ((h.linked y (hin y hy) x hxy).symm.trans hlink))
      exact Tree.encloses_iff.2 ⟨y, hy, rfl⟩
  · rintro (rfl | hencloses)
    · exact Tree.encloses_iff.2 ⟨u, Forest.mem_nodes_of_mem hu, rfl⟩
    · obtain ⟨y, hy, hyid⟩ := Tree.encloses_iff.1 hencloses
      obtain rfl := h.eq_of_id_eq (hin y hy) ht hyid
      refine Tree.encloses_iff.2 ⟨u, ?_, rfl⟩
      exact Forest.mem_nodes_of_child hy hu

/-- Nothing in a tree encloses its top. -/
theorem filter_encloses_top (h : f.Tidy) (hr : r ∈ Forest.nodes f) :
    r.nodes.filter (Tree.encloses r.id) = [] := by
  rw [List.filter_eq_nil_iff]
  intro u hu hencloses
  obtain ⟨x, hx, hid⟩ := Tree.encloses_iff.1 hencloses
  have hinside : x ∈ Forest.nodes r.children := by
    rw [r.nodes_eq] at hu
    rcases List.mem_cons.1 hu with rfl | hu
    · exact hx
    · exact Forest.mem_nodes_of_below hu hx
  have hself := h.not_encloses_self hr
  rw [Tree.encloses_iff.2 ⟨x, hinside, hid⟩] at hself
  simp at hself

/-- The lineage of a node, in the tree of a top without ancestor that was made first, are the blocks
that enclose it. -/
theorem lineage_perm (h : f.Tidy) (hr : r ∈ f) (hfirst : r.id = 0) (htop : r.core.ancestor = none)
    (ht : t ∈ r.nodes) : (f.lineage t.core).Perm (r.nodes.filter (Tree.encloses t.id)) := by
  have hrnode : r ∈ Forest.nodes f := Forest.mem_nodes_of_mem hr
  have hsub := Forest.nodes_sublist f hrnode
  have hnodup : r.nodes.Nodup := .of_map Tree.id (h.nodup_nodes hrnode)
  rcases Tree.eq_or_mem_children r ht with rfl | ⟨p, hp, htp⟩
  · -- the top was made first, and the search for ancestors stops there
    have hcore : t.core.id = 0 := hfirst
    rw [h.filter_encloses_top hrnode, Forest.lineage, hcore, Forest.lineageUpTo]
  · have hlink : t.core.ancestor = some p.id := h.linked p (hsub.subset hp) t htp
    -- a node with an ancestor is not the top, so the search goes on with its trail
    have hlater : t.core.id ≠ 0 := by
      intro hzero
      obtain rfl := h.eq_of_id_eq (hsub.subset ht) hrnode (hzero.trans hfirst.symm)
      simp [hlink] at htop
    obtain ⟨n, hn⟩ := Nat.exists_eq_succ_of_ne_zero hlater
    have htrail := h.trail?_eq (hsub.subset hp)
    rw [h.filter_encloses_eq hr hp] at htrail
    -- the outermost block around is the top, where the links end
    have hlast : (((r.nodes.filter (Tree.encloses p.id)).reverse).getLast?.getD p) = r := by
      rw [List.getLast?_reverse]
      have hp' := hp
      rw [r.nodes_eq] at hp'
      rcases List.mem_cons.1 hp' with rfl | hinside
      · rw [h.filter_encloses_top hrnode]
        rfl
      · rw [r.nodes_eq, List.filter_cons, Tree.encloses_iff.2 ⟨p, hinside, rfl⟩]
        rfl
    have hlineage : f.lineage t.core = p :: (r.nodes.filter (Tree.encloses p.id)).reverse := by
      rw [Forest.lineage, hn, hlink, Forest.lineageUpTo, htrail]
      simp only [hlast, htop]
      cases n <;> simp [Forest.lineageUpTo]
    have hself := h.not_encloses_self (hsub.subset hp)
    rw [hlineage, List.perm_ext_iff_of_nodup (by simp [hself, hnodup.filter]) (hnodup.filter _)]
    intro v
    rw [List.mem_cons, List.mem_reverse, List.mem_filter, List.mem_filter]
    constructor
    · rintro (rfl | ⟨hv, hencloses⟩)
      · exact ⟨hp, (h.encloses_child_iff (hsub.subset hp) htp (hsub.subset hp)).2 (.inl rfl)⟩
      · exact ⟨hv, (h.encloses_child_iff (hsub.subset hp) htp (hsub.subset hv)).2 (.inr hencloses)⟩
    · rintro ⟨hv, hencloses⟩
      rcases (h.encloses_child_iff (hsub.subset hp) htp (hsub.subset hv)).1 hencloses with rfl | hv'
      · exact .inl rfl
      · exact .inr ⟨hv, hv'⟩

end Forest.Tidy

end HttpdConf
