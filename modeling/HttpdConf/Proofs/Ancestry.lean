import HttpdConf.Proofs.WriteReach
import HttpdConf.Tree.Search

/-!
# Blocks around nodes and nodes below blocks

A node knows the block it was made under, and a block knows its children. The two agree in every
workspace that operations lead to, so what is found upwards from a node and what is found downwards
from a block is the same: the lineage of a node in the tree of a root is the path down to it.

## Main definitions

* `Forest.ancestor?`: the live block a node was made under
* `IsPath`: nodes of which each is a child of the one before
* `Workspace.Succeeds`: nodes keep their links, and old nodes are given to no other block

## Main results

* `Workspace.Sound.lineage_eq`: a lineage follows the links, one after the other
* `Workspace.Sound.exists_path`: the lineage of a node is the path down to it
* `Workspace.Succeeds.run`: what operations keep of links and children
* `Workspace.shape_run`: upward and downward searches agree after any operations
-/

namespace HttpdConf

variable {w w' : Workspace} {t u v r b : Tree} {f : Forest} {id : NodeId} {target : Option NodeId}

/-! ## Document order -/

theorem Forest.encloses_of_forall_ne (h : ∀ u ∈ Forest.nodes f, u.id ≠ id)
    (hu : u ∈ Forest.nodes f) : u.encloses id = false := by
  simpa using List.filter_eq_nil_iff.1 (Forest.filter_encloses_eq_nil h) u hu

mutual
/-- In document order, no node stands after one that it encloses. -/
theorem Tree.pairwise_nodes (t : Tree) (h : (t.nodes.map Tree.id).Nodup) :
    t.nodes.Pairwise fun u v => v.encloses u.id = false := by
  match t with
  | .comment core text => simp [Tree.nodes]
  | .directive core statement => simp [Tree.nodes]
  | .block core statement children =>
    rw [Tree.nodes] at h ⊢
    obtain ⟨hself, hchildren⟩ := List.nodup_cons.1 h
    refine List.pairwise_cons.2 ⟨fun v hv => ?_, Forest.pairwise_nodes children hchildren⟩
    exact Forest.encloses_of_forall_ne (fun u hu hid => hself (List.mem_map.2 ⟨u, hu, hid⟩)) hv

theorem Forest.pairwise_nodes (f : Forest) (h : ((Forest.nodes f).map Tree.id).Nodup) :
    (Forest.nodes f).Pairwise fun u v => v.encloses u.id = false := by
  match f with
  | [] => simp
  | t :: f =>
    rw [Forest.nodes_cons] at h ⊢
    rw [List.map_append, List.nodup_append] at h
    obtain ⟨ht, hf, hdisjoint⟩ := h
    refine List.pairwise_append.2 ⟨Tree.pairwise_nodes t ht, Forest.pairwise_nodes f hf, ?_⟩
    intro u hu v hv
    refine Forest.encloses_of_forall_ne (fun x hx hid => ?_) hv
    exact hdisjoint u.id (List.mem_map_of_mem hu) x.id (List.mem_map_of_mem hx) hid.symm
end

/-- In document order, a child is enclosed by what encloses its block and then by the block. -/
theorem Forest.Tidy.filter_encloses_child (hf : f.Tidy) (ht : t ∈ Forest.nodes f)
    (hu : u ∈ t.children) : (Forest.nodes f).filter (Tree.encloses u.id) =
      (Forest.nodes f).filter (Tree.encloses t.id) ++ [t] := by
  have hiff := fun {v} hv => hf.encloses_child_iff (v := v) ht hu hv
  have hself := hf.not_encloses_self ht
  have hnodup : (Forest.nodes f).Nodup := .of_map Tree.id hf.nodup
  have horder := Forest.pairwise_nodes f hf.nodup
  obtain ⟨before, after, hnodes⟩ := List.append_of_mem ht
  rw [hnodes] at hiff hnodup horder ⊢
  obtain ⟨-, hrest, hdisjoint⟩ := List.nodup_append.1 hnodup
  -- what stands before the block encloses both or none of the two, what stands after it none
  have hbefore : before.filter (Tree.encloses u.id) = before.filter (Tree.encloses t.id) := by
    refine List.filter_congr fun v hv => Bool.eq_iff_iff.2 ?_
    have hne : v ≠ t := fun heq => hdisjoint v hv t (List.mem_cons_self ..) heq
    simpa [hne] using hiff (List.mem_append_left _ hv)
  have hafter : ∀ v ∈ after, v.encloses t.id = false :=
    (List.pairwise_cons.1 (List.pairwise_append.1 horder).2.1).1
  have hafter' : ∀ v ∈ after, v.encloses u.id = false := by
    intro v hv
    have hne : v ≠ t := fun heq => (List.nodup_cons.1 hrest).1 (heq ▸ hv)
    rw [Bool.eq_false_iff, Ne, hiff (by simp [hv]), not_or]
    exact ⟨hne, by simp [hafter v hv]⟩
  have hblock : t.encloses u.id = true := (hiff (by simp)).2 (.inl rfl)
  have hnil : after.filter (Tree.encloses t.id) = [] := by simpa using hafter
  have hnil' : after.filter (Tree.encloses u.id) = [] := by simpa using hafter'
  rw [List.filter_append, List.filter_append, hbefore, List.filter_cons, List.filter_cons, hblock,
    hself, hnil, hnil']
  simp

/-! ## Links -/

/-- The live block that a node was made under. -/
def Forest.ancestor? (f : Forest) (core : Core) : Option Tree := core.ancestor.bind f.find?

@[simp]
theorem Forest.lineageUpTo_none (f : Forest) (limit : Nat) : f.lineageUpTo limit none = [] := by
  cases limit <;> rfl

theorem Forest.Tidy.ancestor?_eq (hf : f.Tidy) (ht : t ∈ Forest.nodes f) (hu : u ∈ t.children) :
    f.ancestor? u.core = some t := by
  rw [Forest.ancestor?, hf.linked t ht u hu]
  exact hf.find?_eq ht

namespace Workspace.Sound

variable (hw : w.Sound)
include hw

/-- Links go to older nodes, so a limit over the first of them is never reached. -/
theorem lineageUpTo_eq {limit : Nat} (h : id < limit) :
    w.forest.lineageUpTo limit (some id) = w.forest.lineageUpTo (id + 1) (some id) := by
  induction id using Nat.strong_induction_on generalizing limit with
  | _ id ih =>
    obtain ⟨n, rfl⟩ := Nat.exists_eq_succ_of_ne_zero (Nat.ne_of_gt (Nat.zero_lt_of_lt h))
    rw [Forest.lineageUpTo, Forest.lineageUpTo]
    cases htrail : w.forest.trail? id with
    | none => rfl
    | some trail =>
      obtain ⟨block, around⟩ := trail
      obtain ⟨htop, hle⟩ := hw.getLast?_trail htrail
      obtain ⟨-, rfl, -⟩ := hw.tidy.mem_trail htrail
      cases hlink : (around.getLast?.getD block).core.ancestor with
      | none => simp [hlink]
      | some a =>
        have ha : a < block.id := Nat.lt_of_lt_of_le (hw.older _ htop a hlink) hle
        simp only [hlink]
        rw [ih a ha (Nat.lt_of_lt_of_le ha (Nat.le_of_lt_succ h)), ih a ha ha]

theorem lineageUpTo_congr {link : Option NodeId} {m n : Nat} (h : ∀ a ∈ link, a < m ∧ a < n) :
    w.forest.lineageUpTo m link = w.forest.lineageUpTo n link := by
  cases link with
  | none => simp
  | some a => rw [hw.lineageUpTo_eq (h a rfl).1, hw.lineageUpTo_eq (h a rfl).2]

/-- A lineage follows the links of nodes, one after the other. -/
theorem lineage_eq (ht : t ∈ Forest.nodes w.forest) :
    w.forest.lineage t.core =
      match w.forest.ancestor? t.core with
      | none => []
      | some block => block :: w.forest.lineage block.core := by
  rw [Forest.lineage, Forest.ancestor?]
  cases hlink : t.core.ancestor with
  | none => simp
  | some id =>
    have holder : id < t.core.id := hw.older t ht id hlink
    -- a trail has the blocks around a live one, and the lineage goes on at the outermost of them
    rw [hw.lineageUpTo_eq holder, Forest.lineageUpTo, Option.bind_some, Forest.find?]
    cases htrail : w.forest.trail? id with
    | none => rfl
    | some trail =>
      obtain ⟨block, around⟩ := trail
      obtain ⟨hblock, rfl, rfl⟩ := hw.tidy.trail?_eq_some htrail
      simp only [Option.map_some, List.cons_append, List.cons.injEq, true_and]
      rcases Forest.mem_or_mem_children w.forest hblock with htop | ⟨p, hp, hchild⟩
      · -- nothing is around a block at the top
        rw [hw.tidy.filter_encloses_eq htop block.self_mem_nodes,
          hw.tidy.filter_encloses_top hblock]
        rfl
      · -- what is around the block is its own block and what is around that one
        obtain ⟨htop, hle⟩ := hw.getLast?_trail (hw.tidy.trail?_eq hp)
        have hlink := hw.tidy.linked p hp block hchild
        have hlt : p.id < block.core.id := hw.older block hblock _ hlink
        rw [hw.tidy.filter_encloses_child hp hchild, List.reverse_concat, Forest.lineage, hlink,
          hw.lineageUpTo_eq hlt, Forest.lineageUpTo, hw.tidy.trail?_eq hp,
          List.getLast?_cons, Option.getD_some]
        refine congrArg _ (hw.lineageUpTo_congr fun a ha => ?_)
        have hap : a < p.id := Nat.lt_of_lt_of_le (hw.older _ htop a ha) hle
        exact ⟨Nat.lt_trans hap hlt, hap⟩

/-- The lineage of a child is its block and the lineage of the block. -/
theorem lineage_child (ht : t ∈ Forest.nodes w.forest) (hu : u ∈ t.children) :
    w.forest.lineage u.core = t :: w.forest.lineage t.core := by
  have hunode : u ∈ Forest.nodes w.forest := Forest.mem_nodes_of_child ht hu
  rw [hw.lineage_eq hunode, hw.tidy.ancestor?_eq ht hu]

theorem lt_of_mem_lineage (ht : t ∈ Forest.nodes w.forest) (hu : u ∈ w.forest.lineage t.core) :
    u.id < t.id :=
  hw.lt_of_mem_lineageUpTo (hw.older t ht) hu

/-- Going up from a node, numbers get smaller. -/
theorem pairwise_lineage (ht : t ∈ Forest.nodes w.forest) :
    (t :: w.forest.lineage t.core).Pairwise fun u v => v.id < u.id := by
  induction hid : t.id using Nat.strong_induction_on generalizing t with
  | _ id ih =>
    refine List.pairwise_cons.2 ⟨fun u hu => hw.lt_of_mem_lineage ht hu, ?_⟩
    rw [hw.lineage_eq ht]
    cases hlink : w.forest.ancestor? t.core with
    | none => exact .nil
    | some block =>
      obtain ⟨a, ha, hfind⟩ := Option.bind_eq_some_iff.1 hlink
      obtain ⟨hblock, rfl⟩ := Forest.mem_nodes_of_find? hfind
      exact ih block.id (hid ▸ hw.older t ht _ ha) hblock rfl

/-! ## Paths -/

/-- A node is around all nodes below it. -/
theorem mem_lineage_of_mem_nodes (hb : b ∈ Forest.nodes w.forest)
    (ht : t ∈ Forest.nodes b.children) : b ∈ w.forest.lineage t.core := by
  -- from the children of the block down: what is around a node is around its children
  have hin : ∀ v ∈ Forest.nodes b.children, v ∈ Forest.nodes w.forest := fun _ hv =>
    Forest.mem_nodes_of_below hb hv
  refine Forest.forall_nodes_of_children (P := fun x => b ∈ w.forest.lineage x.core) b.children
    (fun v hv hbv x hx => ?_) (fun x hx => ?_) t ht
  · rw [hw.lineage_child (hin v hv) hx]
    exact List.mem_cons_of_mem _ hbv
  · rw [hw.lineage_child hb hx]
    exact List.mem_cons_self ..

/-- In the tree of a root, what is around a node has the node below it. -/
theorem mem_children_of_mem_lineage (hr : r ∈ Forest.nodes w.forest)
    (hroot : w.forest.lineage r.core = []) (ht : t ∈ r.nodes) (hb : b ∈ w.forest.lineage t.core) :
    t ∈ Forest.nodes b.children := by
  -- from the root down, where the lineage is empty: it grows by the block at each step
  refine Tree.forall_nodes_of_children
    (P := fun x => ∀ b ∈ w.forest.lineage x.core, x ∈ Forest.nodes b.children) r
    (fun v hv hbelow x hx b hb => ?_) (by simp [hroot]) t ht b hb
  rw [hw.lineage_child ((Forest.nodes_sublist _ hr).subset hv) hx] at hb
  rcases List.mem_cons.1 hb with rfl | hb
  · exact Forest.mem_nodes_of_mem hx
  · exact (Forest.nodes_sublist _ (hbelow b hb)).subset
      (Tree.mem_nodes_of_mem_children (Forest.mem_nodes_of_mem hx))

end Workspace.Sound

/-- A way down, on which each node is a child of the one before. -/
def IsPath (path : List Tree) : Prop := path.IsChain fun u v => v ∈ u.children

/-- In the tree of a root, the lineage of a node is the way back up from it. -/
theorem Workspace.Sound.exists_path (hw : w.Sound) (hr : r ∈ Forest.nodes w.forest)
    (hroot : w.forest.lineage r.core = []) (ht : t ∈ r.nodes) :
    ∃ above, IsPath (above ++ [t]) ∧ (above ++ [t]).head? = some r ∧
      w.forest.lineage t.core = above.reverse := by
  refine Tree.forall_nodes_of_children (P := fun x => ∃ above, IsPath (above ++ [x]) ∧
    (above ++ [x]).head? = some r ∧ w.forest.lineage x.core = above.reverse) r
    (fun v hv hpath x hx => ?_) ⟨[], .singleton _, rfl, hroot⟩ t ht
  obtain ⟨above, hchain, hhead, hlineage⟩ := hpath
  refine ⟨above ++ [v], List.isChain_append.2 ⟨hchain, .singleton _, ?_⟩, ?_, ?_⟩
  · simpa using hx
  · rw [List.head?_append, hhead]
    rfl
  · rw [hw.lineage_child ((Forest.nodes_sublist _ hr).subset hv) hx, hlineage,
      List.reverse_concat]

mutual
/-- A walk that excludes nothing meets all nodes. -/
theorem Tree.descendants_false (t : Tree) : t.descendants false = Forest.nodes t.children := by
  match t with
  | .comment core text => simp [Tree.descendants, Tree.children]
  | .directive core statement => simp [Tree.descendants, Tree.children]
  | .block core statement children =>
    rw [Tree.descendants, Tree.children, Forest.walk_false children]

theorem Forest.walk_false (f : Forest) : Forest.walk false f = Forest.nodes f := by
  match f with
  | [] => simp [Forest.walk]
  | t :: f =>
    rw [Forest.walk, Forest.nodes_cons, t.nodes_eq, Tree.descendants_false t, Forest.walk_false f]
    rfl
end

/-! ## What operations keep of the shape -/

/-- A node goes on as another one: it keeps its number, its link and its origin, and it has got no
child whose number was given before. -/
structure Tree.StemsFrom (next : NodeId) (u v : Tree) : Prop where
  id : u.id = v.id
  ancestor : u.core.ancestor = v.core.ancestor
  origin : u.core.origin = v.core.origin
  children : ∀ x ∈ u.children, x.id < next → ∃ y ∈ v.children, x.id = y.id

namespace Tree.StemsFrom

variable {next next' : NodeId}

theorem refl (t : Tree) : t.StemsFrom next t := ⟨rfl, rfl, rfl, fun x hx _ => ⟨x, hx, rfl⟩⟩

theorem trans (huv : u.StemsFrom next' v) (hvt : v.StemsFrom next t) (hle : next ≤ next') :
    u.StemsFrom next t := by
  refine ⟨huv.id.trans hvt.id, huv.ancestor.trans hvt.ancestor, huv.origin.trans hvt.origin,
    fun x hx hold => ?_⟩
  obtain ⟨y, hy, hxy⟩ := huv.children x hx (Nat.lt_of_lt_of_le hold hle)
  obtain ⟨z, hz, hyz⟩ := hvt.children y hy (hxy ▸ hold)
  exact ⟨z, hz, hxy.trans hyz⟩

theorem of_cores (hcore : u.core = v.core)
    (hchildren : ∀ x ∈ u.children, ∃ y ∈ v.children, x.core = y.core) : u.StemsFrom next v := by
  refine ⟨congrArg Core.id hcore, congrArg Core.ancestor hcore, congrArg Core.origin hcore,
    fun x hx _ => ?_⟩
  obtain ⟨y, hy, hxy⟩ := hchildren x hx
  exact ⟨y, hy, congrArg Core.id hxy⟩

theorem of_bare_eq (h : u.bare = v.bare) : u.StemsFrom next v := by
  refine ⟨Tree.id_eq_of_bare_eq h, Tree.ancestor_eq_of_bare_eq h, Tree.origin_eq_of_bare_eq h,
    fun x hx _ => ?_⟩
  obtain ⟨y, hy, hxy⟩ := Tree.exists_child_of_bare_eq h hx
  exact ⟨y, hy, Tree.id_eq_of_bare_eq hxy⟩

end Tree.StemsFrom

theorem Forest.exists_stems_of_bare_eq {f f' : Forest} {next : NodeId}
    (h : f'.map Tree.bare = f.map Tree.bare) (hu : u ∈ Forest.nodes f') :
    ∃ v ∈ Forest.nodes f, u.StemsFrom next v := by
  obtain ⟨v, hv, heq⟩ := Forest.exists_of_bare_eq h hu
  exact ⟨v, hv, .of_bare_eq heq⟩

/-- A workspace comes after another one: numbers are not given back, and the nodes that were there
before go on. -/
structure Workspace.Succeeds (w w' : Workspace) : Prop where
  next_le : w.next ≤ w'.next
  stems : ∀ u ∈ Forest.nodes w'.forest, u.id < w.next →
    ∃ v ∈ Forest.nodes w.forest, u.StemsFrom w.next v

/-- An altered node has its old children, and at most one that was added to it. -/
theorem Workspace.Alters.mem_children {g : Tree → Tree} {loose : Forest} {next : NodeId}
    (h : w.Alters t g loose next) (hu : u ∈ (g t).children) :
    u ∈ t.children ∨ u.core = w.childCore t := by
  cases h with
  | @add content standing index hblock hindex =>
    obtain ⟨core, statement, children, rfl⟩ := Tree.exists_of_isBlock hblock
    rcases List.eq_or_mem_of_mem_insertIdx hu with rfl | hu
    · exact .inr (content.tree_core ..)
    · exact .inl hu
  | delete hv =>
    cases t with
    | block core statement children => exact .inl (List.mem_of_mem_filter hu)
    | _ => exact absurd hu List.not_mem_nil
  | setParameters parameters =>
    rw [Tree.mapStatement_children] at hu
    exact .inl hu

/-- The altered node is the only one with its number. -/
theorem Workspace.Alters.eq_of_core_eq (hw : w.Sound) {g : Tree → Tree} {loose : Forest}
    {next : NodeId} (h : w.Alters t g loose next) (ht : t ∈ Forest.nodes w.forest)
    (hu : u ∈ Forest.nodes (loose ++ w.forest.update t.id g)) (hcore : u.core = t.core) :
    u = g t := by
  have haltered : g t ∈ Forest.nodes (loose ++ w.forest.update t.id g) := by
    rw [Forest.nodes_append]
    exact List.mem_append_right _ (Forest.mem_nodes_update _ hw.tidy.nodup ht)
  exact (hw.alters ht h w.journal).tidy.eq_of_id_eq hu haltered
    (by rw [Tree.id, hcore, Tree.id, h.core t])

/-- Where a node is altered, the nodes that were there before go on. -/
theorem Workspace.Alters.exists_stems (hw : w.Sound) {g : Tree → Tree} {loose : Forest}
    {next : NodeId} (h : w.Alters t g loose next) (ht : t ∈ Forest.nodes w.forest)
    (hv : v ∈ Forest.nodes (loose ++ w.forest.update t.id g)) (hold : v.id < w.next) :
    ∃ x ∈ Forest.nodes w.forest, v.StemsFrom w.next x := by
  rcases h.exists_of_mem_nodes hw.tidy ht hv with hcore | ⟨x, hx, hcore, hchildren⟩ | ⟨hcore, -⟩
  · obtain rfl := h.eq_of_core_eq hw ht hv hcore
    refine ⟨t, ht, congrArg Core.id hcore, congrArg Core.ancestor hcore,
      congrArg Core.origin hcore, fun y hy hyold => ?_⟩
    rcases h.mem_children hy with hy | hnew
    · exact ⟨y, hy, rfl⟩
    · rw [Tree.id, hnew] at hyold
      exact absurd hyold (Nat.lt_irrefl _)
  · exact ⟨x, hx, .of_cores hcore hchildren⟩
  · rw [Tree.id, hcore] at hold
    exact absurd hold (Nat.lt_irrefl _)

namespace Workspace.Succeeds

theorem refl (w : Workspace) : w.Succeeds w := ⟨Nat.le_refl _, fun u hu _ => ⟨u, hu, .refl u⟩⟩

theorem trans {w'' : Workspace} (h : w.Succeeds w') (h' : w'.Succeeds w'') : w.Succeeds w'' := by
  refine ⟨Nat.le_trans h.next_le h'.next_le, fun u hu hold => ?_⟩
  obtain ⟨v, hv, huv⟩ := h'.stems u hu (Nat.lt_of_lt_of_le hold h.next_le)
  obtain ⟨t, ht, hvt⟩ := h.stems v hv (huv.id ▸ hold)
  exact ⟨t, ht, huv.trans hvt h.next_le⟩

/-- An effect keeps the links of all nodes and gives none to another block. -/
theorem effect (hw : w.Sound) (h : w.Effect target w') : w.Succeeds w' := by
  refine ⟨h.next_le, fun u hu hold => ?_⟩
  cases h with
  | record journal => exact ⟨u, hu, .refl u⟩
  | list blocks => exact Forest.exists_stems_of_bare_eq (Forest.bare_list _ _) hu
  | sweep held => exact ⟨u, (Forest.nodes_sweep held w.forest).subset hu, .refl u⟩
  | @construct t kin fragments hid hancestor hflags hchildren =>
    obtain ⟨v, hv, huv⟩ : ∃ v ∈ Forest.nodes (t :: w.forest), u.StemsFrom w.next v := by
      simp only at hu
      split at hu
      · exact Forest.exists_stems_of_bare_eq (Forest.bare_markDirtyAbove _ _) hu
      · exact ⟨u, hu, .refl u⟩
    rw [Forest.nodes_cons, List.mem_append] at hv
    -- the nodes of the new tree all have new numbers
    rcases hv with hv | hv
    · rw [huv.id] at hold
      exact absurd hold (Nat.not_lt_of_le (next_le_of_mem_nodes hid hchildren hv))
    · exact ⟨v, hv, huv⟩
  | @change t g loose next ht h =>
    obtain ⟨v, hv, huv⟩ : ∃ v ∈ Forest.nodes (loose ++ w.forest.update t.id g),
      u.StemsFrom w.next v := Forest.exists_stems_of_bare_eq (Forest.bare_markModified _ _) hu
    rw [huv.id] at hold
    obtain ⟨x, hx, hvx⟩ := h.exists_stems hw ht hv hold
    exact ⟨x, hx, huv.trans hvx (Nat.le_refl _)⟩
  | markClean t =>
    exact Forest.exists_stems_of_bare_eq (Forest.bare_update Tree.bare_markClean w.forest) hu
  | settle blocks root files =>
    refine Forest.exists_stems_of_bare_eq ?_ hu
    rw [← Forest.bare_list w.forest blocks]
    exact Forest.bare_update (Tree.bare_settle files) _

theorem run (hw : w.Sound) (operations : List Operation) : w.Succeeds (w.run operations) := by
  induction operations generalizing w with
  | nil => exact refl w
  | cons op operations ih =>
    rw [Workspace.run, List.foldl_cons]
    rcases effect_perform hw.tidy op with h | h <;> exact (effect hw h).trans (ih (hw.effect h))

/-- A node that was there before has the origin that it had then. -/
theorem origin_eq (h : w.Succeeds w') (hw : w.Sound) (ht : t ∈ Forest.nodes w.forest)
    (hu : u ∈ Forest.nodes w'.forest) (hid : u.id = t.id) : u.core.origin = t.core.origin := by
  obtain ⟨v, hv, huv⟩ := h.stems u hu (hid ▸ hw.lt_next t ht)
  obtain rfl := hw.tidy.eq_of_id_eq hv ht (huv.id.symm.trans hid)
  exact huv.origin

/-- Below a node that was there before are only nodes that were below it then, and new ones. -/
theorem exists_mem_nodes (h : w.Succeeds w') (hw : w.Sound) (hw' : w'.Sound)
    (hr : r ∈ Forest.nodes w'.forest) (hold : r.id < w.next) :
    ∃ v ∈ Forest.nodes w.forest, v.id = r.id ∧
      ∀ x ∈ r.nodes, x.id < w.next → ∃ y ∈ v.nodes, y.id = x.id := by
  obtain ⟨v, hv, hrv⟩ := h.stems r hr hold
  refine ⟨v, hv, hrv.id.symm, ?_⟩
  -- from `r` down: below a new node, all nodes are new, as links lead to older ones
  refine Tree.forall_nodes_of_children (P := fun x => x.id < w.next → ∃ y ∈ v.nodes, y.id = x.id) r
    (fun x hx hfound y hy hyold => ?_) fun _ => ⟨v, v.self_mem_nodes, hrv.id.symm⟩
  have hxnode := (Forest.nodes_sublist _ hr).subset hx
  have hynode := Forest.mem_nodes_of_child hxnode hy
  have hlt : x.id < y.id := hw'.older y hynode x.id (hw'.tidy.linked x hxnode y hy)
  -- the node above is an old one, and had the child before
  obtain ⟨z, hz, hzid⟩ := hfound (Nat.lt_trans hlt hyold)
  obtain ⟨z', hz', hstems⟩ := h.stems x hxnode (Nat.lt_trans hlt hyold)
  obtain rfl := hw.tidy.eq_of_id_eq hz' ((Forest.nodes_sublist _ hv).subset hz)
    (hstems.id.symm.trans hzid.symm)
  obtain ⟨c, hc, hcid⟩ := hstems.children y hy hyold
  exact ⟨c, Tree.mem_nodes_of_child hz hc, hcid.symm⟩

end Workspace.Succeeds

/-! ## Deleted nodes -/

namespace Workspace

variable {child : NodeId}

/-- Right after a deletion the block does not have the child any more. -/
theorem id_ne_of_deleteChild (hw : w.Sound) (hb : b ∈ Forest.nodes w.forest)
    (h : w.deleteChild b child = .ok w') (ht : t ∈ Forest.nodes w'.forest) (hid : t.id = b.id) :
    ∀ u ∈ t.children, u.id ≠ child := by
  obtain ⟨c, hc, rfl, rfl⟩ := deleteChild_cases h
  -- the number of the block is that of the altered block, up to what is recorded
  have halters := hw.alters hb (.delete hc) w.journal
  obtain ⟨v, hv, hbare⟩ := Forest.exists_of_bare_eq (Forest.bare_markModified _ _) ht
  have hmem : b.withChildren (fun children => children.filter fun u => u.id != c.id) ∈
      Forest.nodes ([c] ++ w.forest.update b.id (Tree.withChildren fun children =>
        children.filter fun u => u.id != c.id)) := by
    rw [Forest.nodes_append]
    exact List.mem_append_right _ (Forest.mem_nodes_update _ hw.tidy.nodup hb)
  obtain rfl := halters.tidy.eq_of_id_eq hv hmem (by
    rw [← Tree.id_eq_of_bare_eq hbare, hid, Tree.id, Tree.id, Tree.withChildren_core])
  intro u hu huid
  have hstems : t.StemsFrom (u.id + 1) _ := .of_bare_eq hbare
  obtain ⟨y, hy, huy⟩ := hstems.children u hu (Nat.lt_succ_self _)
  cases b with
  | block core statement children =>
    have hne := (List.mem_filter.1 hy).2
    rw [← huy, huid] at hne
    simp at hne
  | _ => exact absurd hy List.not_mem_nil

/-- A deleted node keeps its link, and whatever happens afterwards, no block gets it back. -/
theorem ancestor_of_deleteChild (hw : w.Sound) (hb : b ∈ Forest.nodes w.forest)
    (h : w.deleteChild b child = .ok w') (later : List Operation) :
    (∀ t ∈ Forest.nodes (w'.run later).forest, t.id = child → t.core.ancestor = some b.id) ∧
      ∀ t ∈ Forest.nodes (w'.run later).forest, ∀ u ∈ t.children, u.id ≠ child := by
  obtain ⟨c, hc, rfl, -⟩ := deleteChild_cases h
  have hcnode := Forest.mem_nodes_of_child hb hc
  have heffect := effect_deleteChild hb h
  have hsound := hw.effect heffect
  have hfinal := hsound.run later
  have hsucceeds := Succeeds.run hsound later
  have hlink : ∀ t ∈ Forest.nodes (w'.run later).forest, t.id = c.id →
      t.core.ancestor = some b.id := by
    intro t ht hid
    obtain ⟨v, hv, htv⟩ := ((Succeeds.effect hw heffect).trans hsucceeds).stems t ht
      (hid ▸ hw.lt_next c hcnode)
    rw [htv.ancestor, hw.tidy.eq_of_id_eq hv hcnode (htv.id.symm.trans hid)]
    exact hw.tidy.linked b hb c hc
  refine ⟨hlink, fun t ht u hu hid => ?_⟩
  have hunode := Forest.mem_nodes_of_child ht hu
  -- by its link, a block that had the child would be the one it was deleted from
  have htid : t.id = b.id :=
    Option.some.inj ((hfinal.tidy.linked t ht u hu).symm.trans (hlink u hunode hid))
  have hle := heffect.next_le
  obtain ⟨v, hv, htv⟩ := hsucceeds.stems t ht (htid ▸ Nat.lt_of_lt_of_le (hw.lt_next b hb) hle)
  obtain ⟨y, hy, huy⟩ := htv.children u hu
    (hid ▸ Nat.lt_of_lt_of_le (hw.lt_next c hcnode) hle)
  exact id_ne_of_deleteChild hw hb h hv (htv.id.symm.trans htid) y hy (huy.symm.trans hid)

end Workspace

/-! ## Upward and downward searches -/

/-- Every node is in one place, the children of a block are linked to it, and links lead to older
nodes, so that going up ends. -/
structure Forest.IsLinked (f : Forest) : Prop where
  nodup : ((Forest.nodes f).map Tree.id).Nodup
  ancestor?_eq : ∀ t ∈ Forest.nodes f, ∀ u ∈ t.children, f.ancestor? u.core = some t
  lineage_eq : ∀ t ∈ Forest.nodes f, f.lineage t.core =
    match f.ancestor? t.core with
    | none => []
    | some block => block :: f.lineage block.core
  pairwise : ∀ t ∈ Forest.nodes f, (t :: f.lineage t.core).Pairwise fun u v => v.id < u.id

/-- In the tree of a root, the blocks of a name around a node are those on the path down to it, the
nearest first, and just the ones that the walk down meets the node from. -/
structure Forest.SearchesAgree (f : Forest) (r : Tree) : Prop where
  mem_iff : ∀ b ∈ r.nodes, b.name ≠ "" → ∀ t ∈ r.nodes,
    b ∈ f.findAncestors t b.name ↔ t ∈ b.descendants false
  nodup : ∀ t ∈ r.nodes, ∀ name, ((f.findAncestors t name).map Tree.id).Nodup
  exists_path : ∀ t ∈ r.nodes, ∃ above, IsPath (above ++ [t]) ∧ (above ++ [t]).head? = some r ∧
    ∀ name, f.findAncestors t name = (above.filter fun b =>
      b.name != "" && Text.sameName b.name name).reverse
  not_mem : ∀ t ∈ r.nodes, ∀ name, t ∉ f.findAncestors t name ∧
    ∀ b ∈ f.findAncestors t name, b.name ≠ ""

namespace Workspace

theorem Sound.isLinked (hw : w.Sound) : w.forest.IsLinked where
  nodup := hw.tidy.nodup
  ancestor?_eq _ ht _ hu := hw.tidy.ancestor?_eq ht hu
  lineage_eq _ ht := hw.lineage_eq ht
  pairwise _ ht := hw.pairwise_lineage ht

theorem Sound.searchesAgree (hw : w.Sound) (hr : r ∈ Forest.nodes w.forest)
    (hroot : w.forest.lineage r.core = []) : w.forest.SearchesAgree r := by
  have hin : ∀ t ∈ r.nodes, t ∈ Forest.nodes w.forest := fun t ht =>
    (Forest.nodes_sublist _ hr).subset ht
  refine ⟨fun b hb hname t ht => ?_, fun t ht name => ?_, fun t ht => ?_, fun t ht name => ?_⟩
  · rw [Tree.descendants_false, Forest.findAncestors, List.mem_filter]
    constructor
    · exact fun h => hw.mem_children_of_mem_lineage hr hroot ht h.1
    · exact fun h => ⟨hw.mem_lineage_of_mem_nodes (hin b hb) h, by simp [hname]⟩
  · have hpairwise := (List.pairwise_cons.1 (hw.pairwise_lineage (hin t ht))).2
    exact List.pairwise_map.2 ((hpairwise.filter _).imp fun h => Nat.ne_of_gt h)
  · obtain ⟨above, hpath, hhead, hlineage⟩ := hw.exists_path hr hroot ht
    refine ⟨above, hpath, hhead, fun name => ?_⟩
    rw [Forest.findAncestors, hlineage, List.filter_reverse]
  · refine ⟨fun hself => ?_, fun b hb => ?_⟩
    · exact Nat.lt_irrefl _ (hw.lt_of_mem_lineage (hin t ht) (List.mem_of_mem_filter hself))
    · have hnamed := (Bool.and_eq_true_iff.1 (List.mem_filter.1 hb).2).1
      simpa using hnamed

/-- After any operations, links and children agree, and so do upward and downward searches in the
tree of a root. A node that is deleted is alive at first and keeps its link, but whatever happens
afterwards, it is no child of any block. -/
theorem shape_run {operations : List Operation} (hw : empty.run operations = w) :
    w.forest.IsLinked ∧
      (∀ r ∈ Forest.nodes w.forest, w.forest.lineage r.core = [] → w.forest.SearchesAgree r) ∧
      ∀ b ∈ Forest.nodes w.forest, ∀ child w', w.deleteChild b child = .ok w' →
        (∃ t ∈ w'.forest, t.id = child) ∧ ∀ later,
          (∀ t ∈ Forest.nodes (w'.run later).forest, t.id = child →
            t.core.ancestor = some b.id) ∧
          ∀ t ∈ Forest.nodes (w'.run later).forest, ∀ u ∈ t.children, u.id ≠ child := by
  have hsound : w.Sound := hw ▸ Sound.empty.run operations
  refine ⟨hsound.isLinked, fun r hr hroot => hsound.searchesAgree hr hroot,
    fun b hb child w' h => ⟨?_, ancestor_of_deleteChild hsound hb h⟩⟩
  obtain ⟨c, hc, rfl, rfl⟩ := deleteChild_cases h
  simp only [Forest.markModified_eq, Forest.mapCores_eq_map, List.map_append, List.map_singleton]
  exact ⟨_, List.mem_append_left _ (List.mem_singleton_self _),
    by rw [Tree.id, Tree.mapCores_core, (Core.record_id_ancestor ..).1, Tree.id]⟩

/-- A block of the same name in another one, from which a directive is added, and the inner block
deleted. -/
theorem shape_run_nested :
    ∃ document w r b t w',
      Fragment.read ⟨⟨"site.conf"⟩, "<A>\n<a x>\nC 1\n</a>\n</A>\n"⟩ = .ok document ∧
      w = empty.run [
        .construct ⟨none, none, false, some (.parsed document), none⟩ (.block "" []) true,
        .edit 0 (.add 2 (.directive "D" []) none)] ∧
      w.forest.find? 0 = some r ∧ w.forest.find? 1 = some b ∧ w.forest.find? 4 = some t ∧
      (w.forest.findAncestors t b.name).map Tree.id = [2, 1] ∧
      (b ∈ w.forest.findAncestors t b.name ↔ t ∈ b.descendants false) ∧
      w.deleteChild b 2 = .ok w' ∧
      ∀ t ∈ Forest.nodes (w'.run [.sweep [1]]).forest, ∀ u ∈ t.children, u.id ≠ 2 := by
  have hfacts : ((Fragment.read ⟨⟨"site.conf"⟩,
        "<A>\n<a x>\nC 1\n</a>\n</A>\n"⟩).toOption.any fun document =>
      let w := empty.run [
        .construct ⟨none, none, false, some (.parsed document), none⟩ (.block "" []) true,
        .edit 0 (.add 2 (.directive "D" []) none)]
      (w.forest.find? 0).any fun r => (w.forest.find? 1).any fun b =>
        (w.forest.find? 4).any fun t => (w.deleteChild b 2).toOption.any fun _ =>
          (w.forest.lineage r.core).isEmpty && (r.nodes.any (·.id == b.id) &&
            (r.nodes.any (·.id == t.id) && (b.name != "" &&
              (w.forest.findAncestors t b.name).map Tree.id == [2, 1])))) = true := by
    decide +kernel
  obtain ⟨document, hread, hfacts⟩ := (Option.any_eq_true ..).1 hfacts
  simp only at hfacts
  generalize hw : empty.run _ = w at hfacts
  obtain ⟨r, hr, hfacts⟩ := (Option.any_eq_true ..).1 hfacts
  obtain ⟨b, hb, hfacts⟩ := (Option.any_eq_true ..).1 hfacts
  obtain ⟨t, ht, hfacts⟩ := (Option.any_eq_true ..).1 hfacts
  obtain ⟨w', hdelete, hfacts⟩ := (Option.any_eq_true ..).1 hfacts
  simp only [Bool.and_eq_true, List.isEmpty_iff, bne_iff_ne, beq_iff_eq] at hfacts
  obtain ⟨hroot, hbr, htr, hname, hfound⟩ := hfacts
  have hshape := shape_run hw
  have htidy := (hw ▸ Sound.empty.run _ : w.Sound).tidy
  have hrnode := (Forest.mem_nodes_of_find? hr).1
  have hbnode := (Forest.mem_nodes_of_find? hb).1
  have htnode := (Forest.mem_nodes_of_find? ht).1
  exact ⟨document, w, r, b, t, w', eq_ok_of_toOption hread, hw.symm, hr, hb, ht, hfound,
    (hshape.2.1 r hrnode hroot).mem_iff b (htidy.mem_nodes_of_any hbnode hrnode hbr) hname t
      (htidy.mem_nodes_of_any htnode hrnode htr),
    eq_ok_of_toOption hdelete,
    ((hshape.2.2 b hbnode 2 w' (eq_ok_of_toOption hdelete)).2 [.sweep [1]]).2⟩

end Workspace

end HttpdConf
