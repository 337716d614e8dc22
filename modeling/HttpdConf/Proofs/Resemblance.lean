import HttpdConf.Proofs.Memories

/-!
# Workspaces that differ in memories

Two workspaces are compared that differ only in what their nodes remember. What a node remembers
matters when it has no live block around it, so of the nodes that are ever like this, one workspace
has to know what the other knows. It may know more: whether a node is in force that has not been
listed in the other one. Then nodes are in force alike, and both workspaces stay alike under all
that is done to them.

## Main definitions

* `Forest.Extends`: no node is gone
* `Workspace.told`: of the live nodes, whether they are in force
* `Workspace.Fits`: other memories, as good as those of the nodes
* `Workspace.Knows`: other memories fit what is true of a workspace
* `Workspace.AtHand`: a live node, maybe as it was before others were listed

## Main results

* `Workspace.Knows.enabled_recast`: nodes are in force alike
* `Workspace.Knows.recast_list`, `Workspace.Knows.list`: listing keeps workspaces alike
* `Workspace.Knows.fits_of_extends`, `Workspace.Knows.steady_of_extends`: so do changes, as long as
  no node goes
-/

namespace HttpdConf

variable {outer : List NodeId} {μ μ' ν e : Memories} {w w' : Workspace} {t t' u : Tree}
  {f f' f'' : Forest}

/-! ## What changes leave of outermost nodes -/

/-- The number of a node, its link and what it remembers. -/
def Tree.stance (t : Tree) : NodeId × Option NodeId × Option (Option Bool) :=
  (t.id, t.core.ancestor, t.statement?.map Statement.standing)

theorem Tree.standing_of_stance (h : t.stance = u.stance) : t.standing = u.standing := by
  have hstanding : ∀ v : Tree,
      v.standing = ((v.statement?.map Statement.standing).join).getD true := fun v => by
    cases v <;> rfl
  rw [hstanding, hstanding, (Prod.mk.inj (Prod.mk.inj h).2).2]

/-- All nodes are still alive, with their links and memories. -/
def Forest.Extends (f' f : Forest) : Prop :=
  ∀ t ∈ Forest.nodes f, ∃ u ∈ Forest.nodes f', u.stance = t.stance

namespace Forest.Extends

theorem refl (f : Forest) : f.Extends f := fun t ht => ⟨t, ht, rfl⟩

theorem trans (h' : f''.Extends f') (h : f'.Extends f) : f''.Extends f := by
  intro t ht
  obtain ⟨u, hu, hut⟩ := h t ht
  obtain ⟨v, hv, hvu⟩ := h' u hu
  exact ⟨v, hv, hvu.trans hut⟩

theorem cons (t : Tree) (f : Forest) : Forest.Extends (t :: f) f := fun u hu =>
  ⟨u, by rw [Forest.nodes_cons]; exact List.mem_append_right _ hu, rfl⟩

theorem exists_id (h : f'.Extends f) (ht : t ∈ Forest.nodes f) :
    ∃ u ∈ Forest.nodes f', u.id = t.id := by
  obtain ⟨u, hu, hstance⟩ := h t ht
  exact ⟨u, hu, congrArg Prod.fst hstance⟩

/-- Flags may change. -/
theorem mapCores {k : Core → Core}
    (hk : ∀ core, (k core).id = core.id ∧ (k core).ancestor = core.ancestor) (f : Forest) :
    (Forest.mapCores k f).Extends f := by
  intro t ht
  refine ⟨t.mapCores k, by rw [Forest.nodes_mapCores]; exact List.mem_map_of_mem ht, ?_⟩
  have hstatement : (t.mapCores k).statement? = t.statement? := by cases t <;> rfl
  rw [Tree.stance, Tree.id, Tree.mapCores_core, (hk _).1, (hk _).2, hstatement]
  rfl

theorem markModified (f : Forest) (core : Core) : (f.markModified core).Extends f :=
  mapCores (Core.record_id_ancestor _ _) f

theorem markDirtyAbove (f : Forest) (core : Core) : (f.markDirtyAbove core).Extends f :=
  mapCores (fun c => by split <;> exact ⟨rfl, rfl⟩) f

/-- Names and parameters may change. -/
theorem mapStatements {g : Core → Statement → Statement}
    (hg : ∀ core s, (g core s).standing = s.standing) (f : Forest) :
    Forest.Extends (f.map (Tree.mapStatements g)) f := by
  intro t ht
  refine ⟨t.mapStatements g, by rw [Forest.nodes_map]; exact List.mem_map_of_mem ht, ?_⟩
  cases t <;> simp [Tree.stance, Tree.mapStatements, Tree.statement?, Tree.id, Tree.core, hg]

end Forest.Extends

mutual
/-- Nodes may be added. -/
theorem Tree.exists_stance_update {g : Tree → Tree} {id : NodeId}
    (hg : ∀ t, ∀ u ∈ t.nodes, ∃ v ∈ (g t).nodes, v.stance = u.stance) (t : Tree) :
    ∀ u ∈ t.nodes, ∃ v ∈ (t.update id g).nodes, v.stance = u.stance := by
  by_cases hid : t.id = id
  · rw [Tree.update_self hid]
    exact hg t
  · match t with
    | .comment core text =>
      have hself : (core.id == id) = false := beq_false_of_ne hid
      rw [Tree.update, hself, if_neg (by simp)]
      exact fun u hu => ⟨u, hu, rfl⟩
    | .directive core statement =>
      have hself : (core.id == id) = false := beq_false_of_ne hid
      rw [Tree.update, hself, if_neg (by simp)]
      exact fun u hu => ⟨u, hu, rfl⟩
    | .block core statement children =>
      have hself : (core.id == id) = false := beq_false_of_ne hid
      rw [Tree.update, hself, if_neg (by simp), Tree.nodes, Tree.nodes]
      intro u hu
      rcases List.mem_cons.1 hu with rfl | hu
      · exact ⟨_, List.mem_cons_self .., rfl⟩
      · obtain ⟨v, hv, hvu⟩ := Forest.exists_stance_update hg children u hu
        exact ⟨v, List.mem_cons_of_mem _ hv, hvu⟩

theorem Forest.exists_stance_update {g : Tree → Tree} {id : NodeId}
    (hg : ∀ t, ∀ u ∈ t.nodes, ∃ v ∈ (g t).nodes, v.stance = u.stance) (f : Forest) :
    (f.update id g).Extends f := by
  match f with
  | [] => simp [Forest.Extends]
  | t :: f =>
    intro u hu
    rw [Forest.update, Forest.nodes_cons]
    rw [Forest.nodes_cons] at hu
    rcases List.mem_append.1 hu with hu | hu
    · obtain ⟨v, hv, hvu⟩ := Tree.exists_stance_update hg t u hu
      exact ⟨v, List.mem_append_left _ hv, hvu⟩
    · obtain ⟨v, hv, hvu⟩ := Forest.exists_stance_update hg f u hu
      exact ⟨v, List.mem_append_right _ hv, hvu⟩
end

/-- A node may be inserted into a block. -/
theorem Forest.Extends.insertChild (f : Forest) (id : NodeId) (index : Nat) (t : Tree) :
    (f.update id (Tree.withChildren (List.insertIdx · index t))).Extends f := by
  refine Forest.exists_stance_update (fun b u hu => ?_) f
  cases b with
  | comment core text => exact ⟨u, hu, rfl⟩
  | directive core statement => exact ⟨u, hu, rfl⟩
  | block core statement children =>
    rw [Tree.nodes] at hu
    rw [Tree.withChildren, Tree.nodes]
    rcases List.mem_cons.1 hu with rfl | hu
    · exact ⟨_, List.mem_cons_self .., rfl⟩
    · refine ⟨u, List.mem_cons_of_mem _ ?_, rfl⟩
      obtain ⟨c, hc, huc⟩ := Forest.mem_nodes.1 hu
      refine Forest.mem_nodes.2 ⟨c, ?_, huc⟩
      by_cases hindex : index ≤ children.length
      · exact (List.mem_insertIdx hindex).2 (.inr hc)
      · rwa [List.insertIdx_of_length_lt (Nat.lt_of_not_le hindex)]

theorem Forest.Extends.adopt (f : Forest) (dirty : Bool) (t : Tree) :
    (f.adopt dirty t).Extends (t :: f) := by
  rw [Forest.adopt]
  split
  · exact .markDirtyAbove _ _
  · exact .refl _

namespace Workspace

theorem exists_make_of_construct {b : Blueprint} {content : NodeContent} {standing : Bool}
    (h : w.construct b content standing = .ok (t, w')) :
    ∃ next, b.make (w.kinship b) w.next content standing = .ok (t, next) ∧
      w' = ⟨w.forest.adopt b.dirty t, next, w.journal⟩ := by
  rw [construct_eq] at h
  cases hmake : b.make (w.kinship b) w.next content standing with
  | error x => simp [hmake, Except.map] at h
  | ok made =>
    rw [hmake] at h
    obtain ⟨rfl, rfl⟩ := Prod.mk.inj (Except.ok.inj h)
    exact ⟨_, rfl, rfl⟩

theorem extends_construct {b : Blueprint} {content : NodeContent} {standing : Bool}
    (h : w.construct b content standing = .ok (t, w')) : w'.forest.Extends (t :: w.forest) := by
  obtain ⟨next, -, rfl⟩ := exists_make_of_construct h
  exact .adopt w.forest b.dirty t

/-- A node that is added to a live block is alive. -/
theorem extends_addChild {b : Tree} {content : NodeContent} {position : Option Nat}
    (hw : w.forest.Tidy) (hb : b ∈ Forest.nodes w.forest) (hblock : b.isBlock = true)
    (h : w.addChild b content position = .ok (t, w')) : w'.forest.Extends (t :: w.forest) := by
  obtain ⟨index, -, hindex, hnew, rfl⟩ := addChild_cases h
  refine (Forest.Extends.markModified _ _).trans fun u hu => ?_
  rw [Forest.nodes_cons] at hu
  rcases List.mem_append.1 hu with hu | hu
  · obtain rfl : u = t := by
      rw [hnew, Tree.nodes_of_children_eq_nil (content.tree_children ..)] at hu
      rw [List.mem_singleton.1 hu, hnew]
    obtain ⟨core, statement, children, rfl⟩ := Tree.exists_of_isBlock hblock
    exact ⟨u, Forest.mem_nodes_of_child (Forest.mem_nodes_update _ hw.nodup hb)
      ((List.mem_insertIdx hindex).2 (.inl rfl)), rfl⟩
  · exact Forest.Extends.insertChild w.forest b.id index t u hu

/-- A new node has a new number. -/
theorem le_of_addChild {b : Tree} {content : NodeContent} {position : Option Nat}
    (h : w.addChild b content position = .ok (t, w')) : ∀ u ∈ t.nodes, w.next ≤ u.id := by
  obtain ⟨-, -, -, rfl, -⟩ := addChild_cases h
  intro u hu
  cases content <;> rw [List.mem_singleton.1 hu] <;> exact Nat.le_refl _

theorem le_of_construct {b : Blueprint} {content : NodeContent} {standing : Bool}
    (h : w.construct b content standing = .ok (t, w')) : ∀ u ∈ t.nodes, w.next ≤ u.id := by
  obtain ⟨next, hmake, -⟩ := exists_make_of_construct h
  exact Blueprint.le_of_make hmake

theorem extends_setParameters {parameters : List String}
    (h : w.setParameters t parameters = .ok w') : w'.forest.Extends w.forest := by
  rw [setParameters] at h
  split at h
  · simp at h
  · obtain rfl := Except.ok.inj h
    refine (Forest.Extends.markModified _ _).trans ?_
    rw [Forest.mapStatements_eq_map]
    exact .mapStatements (fun core s => by split <;> rfl) w.forest

end Workspace

/-! ## Memories that fit -/

/-- A number goes by the same in other memories, or it is told what it does not remember. -/
def Memories.FitAt (μ ν e : Memories) (id : NodeId) : Prop :=
  μ id = ν id ∨ ν id = none ∧ μ id = e id

namespace Memories.FitAt

variable {id : NodeId}

theorem refl (ν e : Memories) (id : NodeId) : ν.FitAt ν e id := .inl rfl

/-- Who is listed may as well have been told before. -/
theorem after_left (h : μ.FitAt ν e id) (ids : List NodeId) : (μ.after e ids).FitAt ν e id := by
  by_cases hid : id ∈ ids
  · rw [FitAt, Memories.after_of_mem hid]
    rcases h with h | ⟨hnone, htold⟩
    · rw [h]
      cases hν : ν id with
      | none => exact .inr ⟨rfl, rfl⟩
      | some standing => exact .inl rfl
    · rw [htold]
      exact .inr ⟨hnone, Option.or_self⟩
  · rwa [FitAt, Memories.after_of_not_mem hid]

theorem after (h : μ.FitAt ν e id) (ids : List NodeId) :
    (μ.after e ids).FitAt (ν.after e ids) e id := by
  by_cases hid : id ∈ ids
  · rw [FitAt, Memories.after_of_mem hid, Memories.after_of_mem hid]
    rcases h with h | ⟨hnone, htold⟩
    · exact .inl (by rw [h])
    · exact .inl (by rw [hnone, htold, Option.or_self, Option.none_or])
  · rwa [FitAt, Memories.after_of_not_mem hid, Memories.after_of_not_mem hid]

/-- An outermost node goes by the same, if it is told what it goes by anyway. -/
theorem standing_eq (h : μ.FitAt ν e t.id) (hν : ∀ s ∈ t.statement?, s.standing = ν t.id)
    (he : ∀ standing ∈ e t.id, standing = t.standing) : (t.recast μ).standing = t.standing := by
  refine Tree.standing_recast fun s hs => ?_
  rcases h with h | ⟨hnone, htold⟩
  · rw [h, hν s hs]
  · have hstanding : t.standing = true := by
      rw [Tree.standing, Option.mem_def.1 hs, Option.bind_some, hν s hs, hnone, Option.getD_none]
    rw [htold, hν s hs, hnone]
    cases hb : e t.id with
    | none => rfl
    | some standing => exact (he standing hb).trans hstanding

end Memories.FitAt

namespace Workspace

/-- Of the live nodes, whether they are in force. -/
def told (w : Workspace) : Memories := fun id => (w.forest.find? id).map w.forest.enabled

theorem Sound.told_eq (hw : w.Sound) (ht : t ∈ Forest.nodes w.forest) :
    w.told t.id = some (w.forest.enabled t) := by
  rw [told, hw.tidy.find?_eq ht, Option.map_some]

theorem exists_of_told {id : NodeId} {inForce : Bool} (h : w.told id = some inForce) :
    ∃ t ∈ Forest.nodes w.forest, t.id = id ∧ w.forest.enabled t = inForce := by
  obtain ⟨t, hfind, htold⟩ := Option.map_eq_some_iff.1 h
  obtain ⟨ht, hid⟩ := Forest.mem_nodes_of_find? hfind
  exact ⟨t, ht, hid, htold⟩

theorem Sound.recast (hw : w.Sound) : (w.recast μ).Sound := by
  refine hw.of_bare_eq ?_ rfl
  rw [recast_forest, List.map_map]
  exact List.map_congr_left fun t _ => Tree.recast_bare

/-- Other memories fit those of the nodes with the numbers `outer`, given that the nodes which are
not listed yet would be told `e`. They are the same for nodes that `e` tells nothing about. -/
structure Fits (w : Workspace) (outer : List NodeId) (e μ : Memories) : Prop where
  sound : w.Sound
  memories : ∃ ν, w.forest.Remembers ν ∧ ∀ id, id ∈ outer ∨ e id = none → μ.FitAt ν e id

/-- Memories fit as before when those of the nodes stay. -/
theorem Fits.of_remembers (h : w.Fits outer e μ) (hw' : w'.Sound)
    (hremembers : ∀ ν, w.forest.Remembers ν → w'.forest.Remembers ν) : w'.Fits outer e μ := by
  obtain ⟨ν, hν, hfit⟩ := h.memories
  exact ⟨hw', ν, hremembers ν hν, hfit⟩

/-- Other memories fit what is true of a workspace; `outer` has all nodes without a live block
around them. -/
structure Knows (w : Workspace) (outer : List NodeId) (e μ : Memories) : Prop where
  fits : w.Fits outer e μ
  told_eq : w.told = e
  mem_outer : ∀ t ∈ Forest.nodes w.forest, w.forest.ancestor? t.core = none → t.id ∈ outer

/-- A live node is at hand in two workspaces, maybe as it was before others were listed. -/
structure AtHand (w : Workspace) (e : Memories) (t t' : Tree) : Prop where
  alive : ∃ u ∈ Forest.nodes w.forest, u.forget = t.forget
  told : e t.id = some (w.forest.enabled t)
  eq_recast : ∃ μ, t' = t.recast μ
  standing_eq : w.forest.lineage t.core = [] → t'.standing = t.standing

theorem AtHand.exists_core (h : w.AtHand e t t') :
    ∃ u ∈ Forest.nodes w.forest, u.core = t.core := by
  obtain ⟨u, hu, hforget⟩ := h.alive
  exact ⟨u, hu, Tree.core_eq_of_forget_eq hforget⟩

namespace Knows

variable (hw : w.Knows outer e μ)
include hw

theorem sound : w.Sound := hw.fits.sound

theorem told (ht : t ∈ Forest.nodes w.forest) : e t.id = some (w.forest.enabled t) :=
  hw.told_eq ▸ hw.sound.told_eq ht

theorem told_of_le {id : NodeId} (hid : w.next ≤ id) : e id = none := by
  rw [← hw.told_eq]
  cases htold : w.told id with
  | none => rfl
  | some inForce =>
    obtain ⟨t, ht, rfl, -⟩ := exists_of_told htold
    exact absurd (hw.sound.lt_next t ht) (Nat.not_lt_of_le hid)

theorem steady : w.forest.IsSteadyFor μ := by
  obtain ⟨ν, hν, hfit⟩ := hw.fits.memories
  intro t ht hlink
  refine (hfit t.id (.inl (hw.mem_outer t ht hlink))).standing_eq (hν t ht) fun standing hb => ?_
  rw [hw.told ht, Option.mem_some_iff] at hb
  rw [← hb, Forest.enabled_of_lineage ((hw.sound.lineage_eq_nil_iff ht).2 hlink)]

theorem atHand (ht : t ∈ Forest.nodes w.forest) : w.AtHand e t (t.recast μ) :=
  ⟨⟨t, ht, rfl⟩, hw.told ht, ⟨μ, rfl⟩, fun hlineage =>
    hw.steady t ht ((hw.sound.lineage_eq_nil_iff ht).1 hlineage)⟩

/-- A node at hand is in force alike. -/
theorem enabled_recast (ht : w.AtHand e t t') :
    (w.recast μ).forest.enabled t' = w.forest.enabled t := by
  obtain ⟨ν, rfl⟩ := ht.eq_recast
  exact hw.sound.enabled_recast hw.steady ht.exists_core Tree.recast_core ht.standing_eq

theorem told_recast : (w.recast μ).told = e := by
  rw [← hw.told_eq]
  funext id
  rw [Workspace.told, recast_forest, Forest.find?_recast, Option.map_map, Workspace.told]
  cases hfind : w.forest.find? id with
  | none => rfl
  | some t =>
    exact congrArg some
      (hw.sound.enabled_recast_of_mem hw.steady (Forest.mem_nodes_of_find? hfind).1)

/-- More may be told. -/
theorem after (ids : List NodeId) : w.Knows outer e (μ.after e ids) := by
  obtain ⟨ν, hν, hfit⟩ := hw.fits.memories
  exact ⟨⟨hw.sound, ν, hν, fun id hid => (hfit id hid).after_left ids⟩, hw.told_eq, hw.mem_outer⟩

/-- Listing changes memories only. -/
theorem recast_list_eq (blocks : List NodeId) :
    (w.recast μ).list blocks = w.recast (μ.after e (w.forest.childIds blocks)) := by
  have he : ∀ t ∈ Forest.nodes (w.recast μ).forest,
      e t.id = some ((w.recast μ).forest.enabled t) := fun t ht =>
    hw.told_recast ▸ hw.sound.recast.told_eq ht
  have hlist := hw.sound.recast.list_eq_recast blocks (Forest.remembers_recast w.forest) he
  rw [recast_forest, Forest.childIds_recast, Forest.map_recast_recast] at hlist
  exact congrArg (fun f => Workspace.mk f w.next w.journal) hlist

theorem exists_list_eq (blocks : List NodeId) :
    ∃ ν, w.forest.Remembers ν ∧ (∀ id, id ∈ outer ∨ e id = none → μ.FitAt ν e id) ∧
      w.list blocks = w.recast (ν.after e (w.forest.childIds blocks)) ∧
      w.Knows outer e (ν.after e (w.forest.childIds blocks)) := by
  obtain ⟨ν, hν, hfit⟩ := hw.fits.memories
  refine ⟨ν, hν, hfit, ?_, ⟨hw.sound, ν, hν, fun id _ => (Memories.FitAt.refl ν e id).after_left _⟩,
    hw.told_eq, hw.mem_outer⟩
  exact congrArg (fun f => Workspace.mk f w.next w.journal)
    (hw.sound.list_eq_recast blocks hν fun t ht => hw.told ht)

/-- Listing keeps workspaces alike. -/
theorem recast_list (blocks : List NodeId) :
    (w.recast μ).list blocks =
      (w.list blocks).recast (μ.after e (w.forest.childIds blocks)) := by
  obtain ⟨ν, -, -, hlist, -⟩ := hw.exists_list_eq blocks
  rw [hw.recast_list_eq, hlist]
  exact congrArg (fun f => Workspace.mk f w.next w.journal)
    (Forest.map_recast_recast w.forest).symm

theorem list (blocks : List NodeId) :
    (w.list blocks).Knows outer e (μ.after e (w.forest.childIds blocks)) := by
  obtain ⟨ν, -, hfit, hlist, hν⟩ := hw.exists_list_eq blocks
  rw [hlist]
  refine ⟨⟨hw.sound.recast, _, Forest.remembers_recast w.forest, fun id hid =>
    (hfit id hid).after _⟩, hν.told_recast, fun t ht hlink => ?_⟩
  rw [recast_forest, Forest.nodes_recast] at ht
  obtain ⟨u, hu, rfl⟩ := List.mem_map.1 ht
  rw [recast_forest, Tree.recast_core, Forest.ancestor?_recast, Option.map_eq_none_iff] at hlink
  rw [Tree.recast_id]
  exact hw.mem_outer u hu hlink

theorem atHand_list (ht : w.AtHand e t t') (blocks : List NodeId) :
    (w.list blocks).AtHand e t t' := by
  obtain ⟨ν, -, -, hlist, hν⟩ := hw.exists_list_eq blocks
  rw [hlist]
  obtain ⟨u, hu, hforget⟩ := ht.alive
  refine ⟨?_, ?_, ht.eq_recast, fun hlineage => ?_⟩
  · refine ⟨u.recast (ν.after e (w.forest.childIds blocks)), ?_, Tree.recast_forget.trans hforget⟩
    rw [recast_forest, Forest.nodes_recast]
    exact List.mem_map_of_mem hu
  · rw [ht.told, recast_forest, hw.sound.enabled_recast hν.steady ht.exists_core rfl fun _ => rfl]
  · rw [recast_forest, Forest.lineage_recast, List.map_eq_nil_iff] at hlineage
    exact ht.standing_eq hlineage

end Knows

/-! ## Changes -/

/-- A node that is still alive has its link and its memory. -/
theorem Sound.stance_eq (hw' : w'.Sound) (hext : w'.forest.Extends w.forest)
    (ht : t ∈ Forest.nodes w.forest) (hu : u ∈ Forest.nodes w'.forest) (hid : t.id = u.id) :
    u.stance = t.stance := by
  obtain ⟨v, hv, hstance⟩ := hext t ht
  obtain rfl := hw'.tidy.eq_of_id_eq hv hu ((congrArg Prod.fst hstance).trans hid)
  exact hstance

/-- If no node goes, an outermost one was so before. -/
theorem Sound.ancestor?_eq_none (hw' : w'.Sound) (hext : w'.forest.Extends w.forest)
    (ht : t ∈ Forest.nodes w.forest) (hu : u ∈ Forest.nodes w'.forest) (hid : t.id = u.id)
    (hlink : w'.forest.ancestor? u.core = none) : w.forest.ancestor? t.core = none := by
  have hancestor : u.core.ancestor = t.core.ancestor :=
    (Prod.mk.inj (Prod.mk.inj (hw'.stance_eq hext ht hu hid)).2).1
  cases hblock : w.forest.ancestor? t.core with
  | none => rfl
  | some b =>
    -- a block that the node was made under would still be alive
    obtain ⟨a, ha, hfind⟩ := Option.bind_eq_some_iff.1 hblock
    obtain ⟨hb, rfl⟩ := Forest.mem_nodes_of_find? hfind
    obtain ⟨x, hx, hxid⟩ := hext.exists_id hb
    rw [Forest.ancestor?, hancestor, ha, Option.bind_some, ← hxid, hw'.tidy.find?_eq hx] at hlink
    cases hlink

end Workspace

/-- The memories `m` for those that `e` tells nothing about. -/
def Memories.grow (μ e m : Memories) : Memories := fun id =>
  if (e id).isSome then μ id else m id

theorem Memories.grow_of_none {m : Memories} {id : NodeId} (h : e id = none) :
    μ.grow e m id = m id := by
  simp [Memories.grow, h]

theorem Memories.grow_of_some {m : Memories} {id : NodeId} {inForce : Bool}
    (h : e id = some inForce) : μ.grow e m id = μ id := by
  simp [Memories.grow, h]

namespace Workspace.Knows

variable (hw : w.Knows outer e μ)
include hw

/-- Old nodes keep their memories when there are new ones. -/
theorem recast_grow {m : Memories} : w.recast (μ.grow e m) = w.recast μ :=
  recast_congr fun _ ht _ _ => Memories.grow_of_some (hw.told ht)

/-- A new node has memories of its own. -/
theorem recast_new (hw' : w'.Sound) (hext : w'.forest.Extends (t :: w.forest))
    (hnew : ∀ u ∈ t.nodes, w.next ≤ u.id) : t.recast (μ.grow e w'.memories) = t := by
  refine Tree.recast_self fun u hu s hs => ?_
  obtain ⟨v, hv, hstance⟩ := hext u (by rw [Forest.nodes_cons]; exact List.mem_append_left _ hu)
  have hid : v.id = u.id := congrArg Prod.fst hstance
  have hstanding : v.statement?.map Statement.standing = some s.standing := by
    rw [(Prod.mk.inj (Prod.mk.inj hstance).2).2, Option.mem_def.1 hs, Option.map_some]
  obtain ⟨s', hs', hsame⟩ := Option.map_eq_some_iff.1 hstanding
  rw [Memories.grow_of_none (hw.told_of_le (hnew u hu)), ← hid, ← hsame]
  exact hw'.remembers v hv s' hs'

/-- Memories fit as long as no node goes. -/
theorem fits_of_extends (hw' : w'.Sound) (hext : w'.forest.Extends w.forest) :
    w'.Fits outer e (μ.grow e w'.memories) := by
  obtain ⟨ν, hν, hfit⟩ := hw.fits.memories
  refine ⟨hw', ν.grow e w'.memories, fun u hu s hs => ?_, fun id hid => ?_⟩
  · cases htold : e u.id with
    | none =>
      rw [Memories.grow_of_none htold]
      exact hw'.remembers u hu s hs
    | some inForce =>
      obtain ⟨t, ht, hid, -⟩ := exists_of_told (hw.told_eq ▸ htold)
      have hstance := (Prod.mk.inj (Prod.mk.inj (hw'.stance_eq hext ht hu hid)).2).2
      rw [Option.mem_def.1 hs, Option.map_some] at hstance
      obtain ⟨s', hs', hsame⟩ := Option.map_eq_some_iff.1 hstance.symm
      rw [Memories.grow_of_some htold, ← hid, ← hsame]
      exact hν t ht s' hs'
  · cases htold : e id with
    | none => exact .inl (by rw [Memories.grow_of_none htold, Memories.grow_of_none htold])
    | some inForce =>
      rw [Memories.FitAt, Memories.grow_of_some htold, Memories.grow_of_some htold]
      exact hfit id hid

/-- Outermost nodes go by the same as long as no node goes. -/
theorem steady_of_extends (hfits : w'.Fits outer e μ') (hext : w'.forest.Extends w.forest) :
    w'.forest.IsSteadyFor μ' := by
  obtain ⟨ν, hν, hfit⟩ := hfits.memories
  intro u hu hlink
  have hold : ∀ inForce ∈ e u.id, u.id ∈ outer ∧ inForce = u.standing := by
    intro inForce htold
    obtain ⟨t, ht, hid, rfl⟩ := exists_of_told (hw.told_eq ▸ htold)
    have houter := hfits.sound.ancestor?_eq_none hext ht hu hid hlink
    refine ⟨hid ▸ hw.mem_outer t ht houter, ?_⟩
    rw [Tree.standing_of_stance (hfits.sound.stance_eq hext ht hu hid)]
    exact Forest.enabled_of_lineage ((hw.sound.lineage_eq_nil_iff ht).2 houter)
  have hmem : u.id ∈ outer ∨ e u.id = none := by
    cases htold : e u.id with
    | none => exact .inr rfl
    | some inForce => exact .inl (hold inForce htold).1
  exact (hfit u.id hmem).standing_eq (hν u hu) fun standing htold => (hold standing htold).2

/-- Files are written alike by a writer that does not look at what nodes remember. -/
theorem exists_writeUnsaved_recast {σ : Type} {writer : Writer (StateM σ)}
    (hwriter : writer.IgnoresMemories) (t : Tree) (state : σ) :
    ∃ μ', Id.run (((w.recast μ).writeUnsaved writer (t.recast μ)).run state) =
        Prod.map (Prod.map id (Workspace.recast μ')) id
          (Id.run ((w.writeUnsaved writer t).run state)) ∧
      (Id.run ((w.writeUnsaved writer t).run state)).1.2.Fits outer e μ' := by
  have hsettle : ∀ w : Workspace, ∀ μ root files,
      (⟨Forest.update root (Tree.settle files) (w.recast μ).forest, w.next, w.journal⟩ :
        Workspace) =
      Workspace.recast μ ⟨w.forest.update root (Tree.settle files), w.next, w.journal⟩ :=
    fun w μ root files => settle_mapStatements Statement.ignoresFlags_recast root files
  have hsettled : ∀ blocks root files, Fits
      ⟨(w.list blocks).forest.update root (Tree.settle files), w.next, w.journal⟩ outer e
      (μ.after e (w.forest.childIds blocks)) := by
    intro blocks root files
    refine (hw.list blocks).fits.of_remembers (hw.sound.effect (.settle blocks root files))
      fun ν hν => ?_
    have hsame := hsettle (w.list blocks) ν root files
    rw [recast_of_remembers hν] at hsame
    exact Forest.remembers_of_recast_eq (congrArg Workspace.forest hsame).symm
  rw [writeUnsaved, writeUnsaved, Tree.unsavedFiles_recast, Tree.blockIds_dirtyNodes_recast,
    recast_forest, Forest.root_recast]
  simp only [Tree.recast_core, Tree.recast_id, writeFiles_recast hwriter, hw.recast_list,
    Tree.blockIds_dirtyNodes_recast]
  split
  · exact ⟨_, rfl, (hw.list _).fits⟩
  · split
    · exact ⟨_, rfl, (hw.list _).fits⟩
    · simp only [StateT.run_bind, Id.run_bind]
      generalize Id.run ((writeFiles writer w.forest (w.forest.root t) t.unsavedFiles).run state) =
        out
      obtain ⟨⟨answer, listed⟩, last⟩ := out
      cases answer with
      | error x => exact ⟨_, rfl, (hw.list _).fits⟩
      | ok _ =>
        exact ⟨_, congrArg (fun w => ((Except.ok t.unsavedFiles, w), last)) (hsettle _ _ _ _),
          hsettled _ _ _⟩

end Workspace.Knows

end HttpdConf
