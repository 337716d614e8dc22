import HttpdConf.Proofs.Operations

/-!
# Flags of pending changes

A change of a node is recorded along its whole lineage, and flags are cleared from some node down to
where nothing is dirty. So in every workspace that operations lead to, a modified node is dirty and
a dirty node has dirty blocks around it.

## Main definitions

* `Tree.IsMarked`: the flags of a node agree with each other and with those of its children

## Main results

* `Forest.Tidy.mem_ids_lineage`: a lineage has the blocks around each block of it
* `Workspace.isMarked_effect`, `Workspace.isMarked_run`: effects and runs keep nodes marked
-/

namespace HttpdConf

/-- A modified node is dirty, and so is a block with a dirty child. -/
structure Tree.IsMarked (t : Tree) : Prop where
  modified : t.core.modified = true → t.core.dirty = true
  children : ∀ u ∈ t.children, u.core.dirty = true → t.core.dirty = true

variable {w w' : Workspace} {t u v : Tree} {f : Forest} {id : NodeId} {target : Option NodeId}

/-- Only the flags of a node and of its children count. -/
theorem Tree.IsMarked.congr (hv : v.IsMarked) (hcore : u.core = v.core)
    (hchildren : ∀ x ∈ u.children, ∃ y ∈ v.children, x.core.dirty = true → y.core.dirty = true) :
    u.IsMarked := by
  constructor
  · rw [hcore]
    exact hv.modified
  · intro x hx hdirty
    obtain ⟨y, hy, hxy⟩ := hchildren x hx
    rw [hcore]
    exact hv.children y hy (hxy hdirty)

/-! ## Lineages -/

/-- A lineage has a block, the blocks around it, and goes on from the outermost of them. -/
theorem Forest.mem_lineageUpTo_succ {limit : Nat} {link : Option NodeId} :
    u ∈ f.lineageUpTo (limit + 1) link ↔ ∃ id ∈ link, ∃ block around,
      f.trail? id = some (block, around) ∧ (u = block ∨ u ∈ around ∨
        u ∈ f.lineageUpTo limit (around.getLast?.getD block).core.ancestor) := by
  cases link with
  | none => simp [Forest.lineageUpTo]
  | some id =>
    rw [Forest.lineageUpTo]
    cases htrail : f.trail? id with
    | none => simp [htrail]
    | some trail =>
      obtain ⟨block, around⟩ := trail
      simp [htrail]

namespace Forest.Tidy

/-- The blocks of a lineage are alive, and so are in it all blocks around one of them. -/
theorem mem_lineageUpTo (hf : f.Tidy) {limit : Nat} {link : Option NodeId}
    (hu : u ∈ f.lineageUpTo limit link) :
    u ∈ Forest.nodes f ∧
      ∀ v ∈ Forest.nodes f, u ∈ v.children → v ∈ f.lineageUpTo limit link := by
  induction limit generalizing link with
  | zero => simp [Forest.lineageUpTo] at hu
  | succ limit ih =>
    obtain ⟨id, hid, block, around, htrail, hu⟩ := Forest.mem_lineageUpTo_succ.1 hu
    obtain ⟨hblock, -, haround⟩ := hf.trail?_eq_some htrail
    -- what encloses the block is around it
    have hmem : ∀ v ∈ Forest.nodes f, v.encloses block.id = true → v ∈ around := by
      intro v hv hencloses
      rw [haround, List.mem_reverse, List.mem_filter]
      exact ⟨hv, hencloses⟩
    suffices u ∈ Forest.nodes f ∧ ∀ v ∈ Forest.nodes f, u ∈ v.children → v = block ∨ v ∈ around ∨
        v ∈ f.lineageUpTo limit (around.getLast?.getD block).core.ancestor from
      ⟨this.1, fun v hv hchild =>
        Forest.mem_lineageUpTo_succ.2 ⟨id, hid, block, around, htrail, this.2 v hv hchild⟩⟩
    rcases hu with rfl | hu | hu
    · refine ⟨hblock, fun v hv hchild => .inr (.inl (hmem v hv ?_))⟩
      exact Tree.encloses_iff.2 ⟨u, Forest.mem_nodes_of_mem hchild, rfl⟩
    · rw [haround, List.mem_reverse, List.mem_filter] at hu
      refine ⟨hu.1, fun v hv hchild => .inr (.inl (hmem v hv ?_))⟩
      obtain ⟨x, hx, hxid⟩ := Tree.encloses_iff.1 hu.2
      refine Tree.encloses_iff.2 ⟨x, ?_, hxid⟩
      exact (Forest.nodes_sublist _ (Forest.mem_nodes_of_mem hchild)).subset
        (Tree.mem_nodes_of_mem_children hx)
    · obtain ⟨hunode, hclosed⟩ := ih hu
      exact ⟨hunode, fun v hv hchild => .inr (.inr (hclosed v hv hchild))⟩

/-- The block around a node is in its lineage. -/
theorem mem_lineage_of_mem_children (hf : f.Tidy)
    (holder : ∀ t ∈ Forest.nodes f, ∀ id ∈ t.core.ancestor, id < t.id)
    (hv : v ∈ Forest.nodes f) (hu : u ∈ v.children) : v ∈ f.lineage u.core := by
  have hunode : u ∈ Forest.nodes f := Forest.mem_nodes_of_child hv hu
  have hlink := hf.linked v hv u hu
  have hlater : u.core.id ≠ 0 := Nat.ne_of_gt (Nat.lt_of_le_of_lt (Nat.zero_le _)
    (holder u hunode v.id hlink))
  obtain ⟨n, hn⟩ := Nat.exists_eq_succ_of_ne_zero hlater
  rw [Forest.lineage, hn, hlink, Forest.lineageUpTo, hf.trail?_eq hv]
  exact List.mem_cons_self ..

end Forest.Tidy

/-! ## Marking -/

/-- Marks on a set of nodes that has the blocks around each of them leave all nodes marked. -/
theorem Forest.isMarked_mapCores {k : Core → Core} {S : NodeId → Prop}
    (hclosed : ∀ v ∈ Forest.nodes f, ∀ u ∈ v.children, S u.id → S v.id)
    (hmark : ∀ core, S core.id → (k core).dirty = true)
    (hkeep : ∀ core, ¬ S core.id → k core = core)
    (h : ∀ t ∈ Forest.nodes f, ¬ S t.id → t.IsMarked) :
    ∀ t ∈ Forest.nodes (Forest.mapCores k f), t.IsMarked := by
  intro t ht
  rw [Forest.nodes_mapCores] at ht
  obtain ⟨v, hv, rfl⟩ := List.mem_map.1 ht
  by_cases hS : S v.id
  · have hdirty : (v.mapCores k).core.dirty = true := by
      rw [Tree.mapCores_core]
      exact hmark _ hS
    exact ⟨fun _ => hdirty, fun _ _ _ => hdirty⟩
  · have hmarked := h v hv hS
    have hcore : (v.mapCores k).core = v.core := by
      rw [Tree.mapCores_core]
      exact hkeep _ hS
    refine ⟨fun hmodified => ?_, fun x hx hdirty => ?_⟩
    · rw [hcore] at hmodified ⊢
      exact hmarked.modified hmodified
    · rw [Tree.mapCores_children] at hx
      obtain ⟨y, hy, rfl⟩ := List.mem_map.1 hx
      rw [Tree.mapCores_core, hkeep _ fun hy' => hS (hclosed v hv y hy hy')] at hdirty
      rw [hcore]
      exact hmarked.children y hy hdirty

/-- The numbers of a lineage have those of the blocks around them. -/
theorem Forest.Tidy.mem_ids_lineage (hf : f.Tidy) {core : Core} (hv : v ∈ Forest.nodes f)
    (hu : u ∈ v.children) (hid : u.id ∈ (f.lineage core).map Tree.id) :
    v.id ∈ (f.lineage core).map Tree.id := by
  obtain ⟨x, hx, hxid⟩ := List.mem_map.1 hid
  obtain ⟨hxnode, hclosed⟩ := hf.mem_lineageUpTo hx
  have hunode : u ∈ Forest.nodes f := Forest.mem_nodes_of_child hv hu
  rw [hf.eq_of_id_eq hxnode hunode hxid] at hclosed
  exact List.mem_map_of_mem (hclosed v hv hu)

/-- A recorded change leaves all nodes marked, if all but the changed one were. -/
theorem Forest.isMarked_markModified (hf : f.Tidy)
    (holder : ∀ t ∈ Forest.nodes f, ∀ id ∈ t.core.ancestor, id < t.id)
    (ht : t ∈ Forest.nodes f) (h : ∀ u ∈ Forest.nodes f, u.id ≠ t.id → u.IsMarked) :
    ∀ u ∈ Forest.nodes (f.markModified t.core), u.IsMarked := by
  rw [Forest.markModified_eq]
  apply Forest.isMarked_mapCores
    (S := fun id => id = t.core.id ∨ id ∈ (f.lineage t.core).map Tree.id)
  · rintro v hv u hu (hid | hid)
    · have hunode : u ∈ Forest.nodes f := Forest.mem_nodes_of_child hv hu
      obtain rfl := hf.eq_of_id_eq hunode ht hid
      exact .inr (List.mem_map_of_mem (hf.mem_lineage_of_mem_children holder hv hu))
    · exact .inr (hf.mem_ids_lineage hv hu hid)
  · intro core hS
    by_cases hid : core.id = t.core.id
    · simp [Core.record, hid, Core.touched]
    · simp [Core.record, hid, hS.resolve_left hid, Core.stirred]
  · intro core hS
    obtain ⟨hid, haround⟩ := not_or.1 hS
    simp [Core.record, hid, haround]
  · exact fun u hu hS => h u hu fun hid => hS (.inl hid)

/-- Dirtiness that is passed on to the lineage leaves all nodes marked. -/
theorem Forest.isMarked_markDirtyAbove (hf : f.Tidy) (core : Core)
    (h : ∀ u ∈ Forest.nodes f, u.IsMarked) :
    ∀ u ∈ Forest.nodes (f.markDirtyAbove core), u.IsMarked := by
  apply Forest.isMarked_mapCores (S := fun id => id ∈ (f.lineage core).map Tree.id)
  · exact fun v hv u hu hid => hf.mem_ids_lineage hv hu hid
  · intro c hS
    simp [hS]
  · intro c hS
    simp [hS]
  · exact fun u hu _ => h u hu

/-! ## Clearing -/

theorem Tree.dirty_markClean (t : Tree) : t.markClean.core.dirty = false := by
  cases t with
  | block core statement children =>
    rw [Tree.markClean]
    split
    · rfl
    · rename_i hclean
      exact (Bool.or_eq_false_iff.1 (Bool.eq_false_iff.2 hclean)).1
  | _ => rfl

theorem Forest.dirty_markClean (f : Forest) : ∀ t ∈ Forest.markClean f, t.core.dirty = false := by
  induction f with
  | nil => simp [Forest.markClean]
  | cons t f ih =>
    rw [Forest.markClean]
    intro u hu
    rcases List.mem_cons.1 hu with rfl | hu
    · exact t.dirty_markClean
    · exact ih u hu

mutual
/-- A node of a tree whose changes are forgotten was left alone, or is a node of the tree with its
flags cleared. -/
theorem Tree.mem_nodes_markClean {u : Tree} (t : Tree) (hu : u ∈ t.markClean.nodes) :
    u ∈ t.nodes ∨
      ∃ v ∈ t.nodes, u.children = Forest.markClean v.children ∧ u.core = v.core.clean := by
  match t with
  | .comment core text =>
    rw [List.mem_singleton.1 hu]
    exact .inr ⟨_, Tree.self_mem_nodes _, rfl, rfl⟩
  | .directive core statement =>
    rw [List.mem_singleton.1 hu]
    exact .inr ⟨_, Tree.self_mem_nodes _, rfl, rfl⟩
  | .block core statement children =>
    rw [Tree.markClean] at hu
    split at hu
    · rw [Tree.nodes] at hu
      rcases List.mem_cons.1 hu with rfl | hu
      · exact .inr ⟨_, Tree.self_mem_nodes _, rfl, rfl⟩
      · rcases Forest.mem_nodes_markClean children hu with hu | ⟨v, hv, h⟩
        · exact .inl (Tree.mem_nodes_of_mem_children hu)
        · exact .inr ⟨v, Tree.mem_nodes_of_mem_children hv, h⟩
    · exact .inl hu

theorem Forest.mem_nodes_markClean {u : Tree} (f : Forest)
    (hu : u ∈ Forest.nodes (Forest.markClean f)) :
    u ∈ Forest.nodes f ∨ ∃ v ∈ Forest.nodes f,
      u.children = Forest.markClean v.children ∧ u.core = v.core.clean := by
  match f with
  | [] => simp [Forest.markClean] at hu
  | t :: f =>
    rw [Forest.markClean, Forest.nodes_cons, List.mem_append] at hu
    rw [Forest.nodes_cons]
    rcases hu with hu | hu
    · rcases Tree.mem_nodes_markClean t hu with hu | ⟨v, hv, h⟩
      · exact .inl (List.mem_append_left _ hu)
      · exact .inr ⟨v, List.mem_append_left _ hv, h⟩
    · rcases Forest.mem_nodes_markClean f hu with hu | ⟨v, hv, h⟩
      · exact .inl (List.mem_append_right _ hu)
      · exact .inr ⟨v, List.mem_append_right _ hv, h⟩
end

/-- Where changes are forgotten, flags agree. -/
theorem Tree.isMarked_markClean (t : Tree) (h : ∀ u ∈ t.nodes, u.IsMarked) :
    ∀ u ∈ t.markClean.nodes, u.IsMarked := by
  intro u hu
  rcases Tree.mem_nodes_markClean t hu with hu | ⟨v, -, hchildren, hcore⟩
  · exact h u hu
  · refine ⟨fun hmodified => ?_, fun x hx hdirty => ?_⟩
    · simp [hcore, Core.clean] at hmodified
    · rw [hchildren] at hx
      simp [Forest.dirty_markClean v.children x hx] at hdirty

mutual
/-- A node of a settled tree is in what was left alone, or is a node of the tree with the flags that
it keeps. -/
theorem Tree.mem_nodes_settle {u : Tree} {files : List Path} (t : Tree)
    (hu : u ∈ (t.settle files).nodes) :
    (∃ v ∈ t.nodes, v.core.dirty = false ∧ u ∈ v.nodes) ∨
      ∃ v ∈ t.nodes, u.children = Forest.settle files v.children ∧
        u.core = v.core.settle files (u.children.any fun x => x.core.dirty) := by
  by_cases hdirty : t.core.dirty = true
  · match t with
    | .comment core text =>
      rw [Tree.settle, if_pos (show core.dirty = true from hdirty)] at hu
      rw [List.mem_singleton.1 hu]
      exact .inr ⟨_, Tree.self_mem_nodes _, rfl, rfl⟩
    | .directive core statement =>
      rw [Tree.settle, if_pos (show core.dirty = true from hdirty)] at hu
      rw [List.mem_singleton.1 hu]
      exact .inr ⟨_, Tree.self_mem_nodes _, rfl, rfl⟩
    | .block core statement children =>
      rw [Tree.settle, if_pos (show core.dirty = true from hdirty), Tree.nodes] at hu
      rcases List.mem_cons.1 hu with rfl | hu
      · exact .inr ⟨_, Tree.self_mem_nodes _, rfl, rfl⟩
      · rcases Forest.mem_nodes_settle children hu with ⟨v, hv, h⟩ | ⟨v, hv, h⟩
        · exact .inl ⟨v, Tree.mem_nodes_of_mem_children hv, h⟩
        · exact .inr ⟨v, Tree.mem_nodes_of_mem_children hv, h⟩
  · have hclean : t.core.dirty = false := Bool.eq_false_iff.2 hdirty
    rw [Tree.settle_of_clean hclean] at hu
    exact .inl ⟨t, t.self_mem_nodes, hclean, hu⟩

theorem Forest.mem_nodes_settle {u : Tree} {files : List Path} (f : Forest)
    (hu : u ∈ Forest.nodes (Forest.settle files f)) :
    (∃ v ∈ Forest.nodes f, v.core.dirty = false ∧ u ∈ v.nodes) ∨
      ∃ v ∈ Forest.nodes f, u.children = Forest.settle files v.children ∧
        u.core = v.core.settle files (u.children.any fun x => x.core.dirty) := by
  match f with
  | [] => simp [Forest.settle] at hu
  | t :: f =>
    rw [Forest.settle, Forest.nodes_cons, List.mem_append] at hu
    rw [Forest.nodes_cons]
    rcases hu with hu | hu
    · rcases Tree.mem_nodes_settle t hu with ⟨v, hv, h⟩ | ⟨v, hv, h⟩
      · exact .inl ⟨v, List.mem_append_left _ hv, h⟩
      · exact .inr ⟨v, List.mem_append_left _ hv, h⟩
    · rcases Forest.mem_nodes_settle f hu with ⟨v, hv, h⟩ | ⟨v, hv, h⟩
      · exact .inl ⟨v, List.mem_append_right _ hv, h⟩
      · exact .inr ⟨v, List.mem_append_right _ hv, h⟩
end

theorem Tree.dirty_of_dirty_settle {files : List Path} (h : (t.settle files).core.dirty = true) :
    t.core.dirty = true := by
  by_cases hdirty : t.core.dirty = true
  · exact hdirty
  · rwa [Tree.settle_of_clean (Bool.eq_false_iff.2 hdirty)] at h

/-- Where files are settled, flags agree. -/
theorem Tree.isMarked_settle (files : List Path) (t : Tree) (h : ∀ u ∈ t.nodes, u.IsMarked) :
    ∀ u ∈ (t.settle files).nodes, u.IsMarked := by
  intro u hu
  rcases Tree.mem_nodes_settle t hu with ⟨v, hv, -, hu⟩ | ⟨v, -, -, hcore⟩
  · exact h u ((Tree.nodes_sublist t hv).subset hu)
  · refine ⟨fun hmodified => ?_, fun x hx hdirty => ?_⟩
    · rw [hcore] at hmodified ⊢
      exact Bool.or_eq_true_iff.2 (.inl hmodified)
    · rw [hcore]
      exact Bool.or_eq_true_iff.2 (.inr (List.any_eq_true.2 ⟨x, hx, hdirty⟩))

/-- Flags may be cleared from some node down. -/
theorem Forest.isMarked_update {g : Tree → Tree}
    (hdirty : ∀ u, (g u).core.dirty = true → u.core.dirty = true)
    (hg : ∀ u, (∀ v ∈ u.nodes, v.IsMarked) → ∀ v ∈ (g u).nodes, v.IsMarked)
    (h : ∀ u ∈ Forest.nodes f, u.IsMarked) :
    ∀ u ∈ Forest.nodes (f.update id g), u.IsMarked := by
  intro u hu
  rcases Forest.exists_of_mem_nodes_update (R := fun a b => a.dirty = true → b.dirty = true)
    (fun _ => fun h => h) hdirty f hu with ⟨v, hv, hcore, hchildren⟩ | ⟨v, hv, -, hu⟩
  · exact (h v hv).congr hcore hchildren
  · exact hg v (fun x hx => h x ((Forest.nodes_sublist f hv).subset hx)) u hu

/-! ## Every state -/

/-- What nodes remember has no part in flags. -/
theorem Forest.isMarked_list (h : ∀ u ∈ Forest.nodes f, u.IsMarked) (blocks : List NodeId) :
    ∀ u ∈ Forest.nodes (f.list blocks), u.IsMarked := by
  intro u hu
  obtain ⟨v, hv, hcore, hchildren⟩ := Forest.exists_of_mem_nodes_list hu
  refine (h v hv).congr hcore fun x hx => ?_
  obtain ⟨y, hy, hxy⟩ := hchildren x hx
  exact ⟨y, hy, fun hdirty => hxy ▸ hdirty⟩

namespace Workspace

/-- Every effect keeps the nodes of a sound workspace marked. -/
theorem isMarked_effect (hw : w.Sound) (hmarked : ∀ t ∈ Forest.nodes w.forest, t.IsMarked)
    (h : w.Effect target w') : ∀ t ∈ Forest.nodes w'.forest, t.IsMarked := by
  cases h with
  | record journal => exact hmarked
  | list blocks => exact Forest.isMarked_list hmarked blocks
  | sweep held =>
    exact fun t ht => hmarked t ((Forest.nodes_sweep held w.forest).subset ht)
  | @construct t kin fragments hid hancestor hflags hchildren =>
    have hsound := hw.construct hid hancestor hchildren w.journal
    have hclean : ∀ u ∈ Forest.nodes t.children,
        u.core.dirty = false ∧ u.core.modified = false := by
      intro u hu
      rw [hchildren] at hu
      obtain ⟨a, id, fragment, hcore, -⟩ :=
        Forest.core_ofFragments kin w.next (w.next + 1) fragments (Nat.lt_succ_self _) u hu
      rw [hcore]
      exact ⟨rfl, rfl⟩
    have hall : ∀ u ∈ Forest.nodes (t :: w.forest), u.IsMarked := by
      intro u hu
      rw [Forest.nodes_cons, List.mem_append, t.nodes_eq, List.mem_cons] at hu
      rcases hu with (rfl | hu) | hu
      · refine ⟨fun hmodified => hflags ▸ hmodified, fun x hx hdirty => ?_⟩
        simp [(hclean x (Forest.mem_nodes_of_mem hx)).1] at hdirty
      · refine ⟨fun hmodified => ?_, fun x hx hdirty => ?_⟩
        · simp [(hclean u hu).2] at hmodified
        · have hx' := Forest.mem_nodes_of_child hu hx
          simp [(hclean x hx').1] at hdirty
      · exact hmarked u hu
    intro u hu
    simp only at hu
    split at hu
    · exact Forest.isMarked_markDirtyAbove hsound.tidy t.core hall u hu
    · exact hall u hu
  | @change t g loose next ht h =>
    have hsound := hw.alters ht h w.journal
    have hmem : g t ∈ Forest.nodes (loose ++ w.forest.update t.id g) := by
      rw [Forest.nodes_append]
      exact List.mem_append_right _ (Forest.mem_nodes_update w.forest hw.tidy.nodup ht)
    rw [← h.core t]
    refine Forest.isMarked_markModified hsound.tidy hsound.older hmem fun u hu hid => ?_
    -- all but the altered node have the flags they had, and a new node has nothing inside
    rcases h.exists_of_mem_nodes hw.tidy ht hu with hcore | ⟨v, hv, hcore, hchildren⟩ |
      ⟨hcore, hempty⟩
    · exact absurd (by rw [Tree.id, Tree.id, hcore, h.core]) hid
    · refine (hmarked v hv).congr hcore fun x hx => ?_
      obtain ⟨y, hy, hxy⟩ := hchildren x hx
      exact ⟨y, hy, fun hdirty => hxy ▸ hdirty⟩
    · refine ⟨fun _ => ?_, fun x hx => by simp [hempty] at hx⟩
      rw [hcore]
      rfl
  | markClean t =>
    refine Forest.isMarked_update (fun u hu => ?_) (fun u hu => u.isMarked_markClean hu) hmarked
    rw [Tree.dirty_markClean] at hu
    simp at hu
  | settle blocks root files =>
    exact Forest.isMarked_update (fun u hu => Tree.dirty_of_dirty_settle hu)
      (fun u hu => u.isMarked_settle files hu) (Forest.isMarked_list hmarked blocks)

/-- Every run of operations from marked nodes leads to marked nodes. -/
theorem isMarked_run (hw : w.Sound) (hmarked : ∀ t ∈ Forest.nodes w.forest, t.IsMarked)
    (operations : List Operation) :
    ∀ t ∈ Forest.nodes (w.run operations).forest, t.IsMarked := by
  induction operations generalizing w with
  | nil => exact hmarked
  | cons op operations ih =>
    rw [run, List.foldl_cons]
    rcases effect_perform hw.tidy op with h | h <;>
      exact ih (hw.effect h) (isMarked_effect hw hmarked h)

end Workspace

end HttpdConf
