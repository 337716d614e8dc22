import HttpdConf.Proofs.Operations
import HttpdConf.Tree.Search

/-!
# Trees with other statements

Most of what is done with trees goes by the numbers, links and flags of their nodes, and not by
what their statements say. So it commutes with a change of all statements: nodes are found in the
same places, the same blocks are around them, and the same nodes are marked, settled and swept.

## Main definitions

* `IgnoresFlags`: a change of statements that does not depend on flags
* `Workspace.kinship`, `Blueprint.make`, `Forest.adopt`: what a new tree takes over, what it is, and
  the forest with it
* `Tree.placeFor`, `Forest.graft`: where a node may be added, and the forest with it

## Main results

* `Tree.nodes_mapStatements`, `Forest.find?_map`, `Forest.lineage_map`: the same nodes are found
* `Forest.mapStatements_update`, `Forest.markModified_map`, `Forest.sweep_map`: changes in place and
  sweeps commute with a change of statements
* `Workspace.construct_eq`, `Workspace.addChild_eq`: new nodes step by step
* `Workspace.deleteChild_mapStatements`, `Workspace.save_mapStatements`: the same for workspaces
-/

namespace HttpdConf

variable {g : Core → Statement → Statement} {t u : Tree} {f : Forest} {id : NodeId}

/-- What becomes of a statement does not depend on the flags of its node. -/
def IgnoresFlags (g : Core → Statement → Statement) : Prop :=
  ∀ core core' : Core, core.clean = core'.clean → g core = g core'

/-! ## Nodes -/

@[simp]
theorem Tree.mapStatements_core : (t.mapStatements g).core = t.core := by
  cases t <;> rfl

@[simp]
theorem Tree.mapStatements_id : (t.mapStatements g).id = t.id := by
  rw [Tree.id, Tree.mapStatements_core, Tree.id]

theorem Tree.mapStatements_children :
    (t.mapStatements g).children = t.children.map (Tree.mapStatements g) := by
  cases t <;> simp [Tree.mapStatements, Tree.children, Forest.mapStatements_eq_map]

@[simp]
theorem Tree.mapStatements_isBlock : (t.mapStatements g).isBlock = t.isBlock := by
  cases t <;> rfl

@[simp]
theorem Tree.mapStatements_isDirective : (t.mapStatements g).isDirective = t.isDirective := by
  cases t <;> rfl

theorem Tree.mapStatements_name (hg : ∀ core s, (g core s).name = s.name) :
    (t.mapStatements g).name = t.name := by
  cases t <;> simp [Tree.mapStatements, Tree.name, Tree.statement?, hg]

theorem Tree.mapStatements_block (core : Core) (statement : Statement) (children : Forest) :
    (Tree.block core statement children).mapStatements g =
      .block core (g core statement) (children.map (Tree.mapStatements g)) := by
  rw [Tree.mapStatements, Forest.mapStatements_eq_map]

mutual
theorem Tree.nodes_mapStatements {g : Core → Statement → Statement} (t : Tree) :
    (t.mapStatements g).nodes = t.nodes.map (Tree.mapStatements g) := by
  match t with
  | .comment core text => rfl
  | .directive core statement => rfl
  | .block core statement children =>
    rw [Tree.mapStatements_block, Tree.nodes, Tree.nodes, List.map_cons, Tree.mapStatements_block,
      Forest.nodes_map children]

theorem Forest.nodes_map {g : Core → Statement → Statement} (f : Forest) :
    Forest.nodes (f.map (Tree.mapStatements g)) =
      (Forest.nodes f).map (Tree.mapStatements g) := by
  match f with
  | [] => simp
  | t :: f =>
    rw [List.map_cons, Forest.nodes_cons, Forest.nodes_cons, Tree.nodes_mapStatements t,
      Forest.nodes_map f, List.map_append]
end

mutual
theorem Tree.mapStatements_self (t : Tree) : t.mapStatements (fun _ s => s) = t := by
  match t with
  | .comment core text => rfl
  | .directive core statement => rfl
  | .block core statement children =>
    rw [Tree.mapStatements_block, Forest.map_mapStatements_self children]

theorem Forest.map_mapStatements_self (f : Forest) :
    f.map (Tree.mapStatements fun _ s => s) = f := by
  match f with
  | [] => rfl
  | t :: f =>
    rw [List.map_cons, Tree.mapStatements_self t, Forest.map_mapStatements_self f]
end

mutual
/-- One change of statements after another is one change of statements. -/
theorem Tree.mapStatements_mapStatements {g h : Core → Statement → Statement} (t : Tree) :
    (t.mapStatements g).mapStatements h = t.mapStatements fun core s => h core (g core s) := by
  match t with
  | .comment core text => rfl
  | .directive core statement => rfl
  | .block core statement children =>
    rw [Tree.mapStatements_block, Tree.mapStatements_block, Tree.mapStatements_block,
      Forest.map_map_mapStatements children]

theorem Forest.map_map_mapStatements {g h : Core → Statement → Statement} (f : Forest) :
    (f.map (Tree.mapStatements g)).map (Tree.mapStatements h) =
      f.map (Tree.mapStatements fun core s => h core (g core s)) := by
  match f with
  | [] => rfl
  | t :: f =>
    rw [List.map_cons, List.map_cons, List.map_cons, Tree.mapStatements_mapStatements t,
      Forest.map_map_mapStatements f]
end

mutual
/-- Changes that agree on all statements of a tree have the same effect on it. -/
theorem Tree.mapStatements_congr {g h : Core → Statement → Statement} (t : Tree)
    (hgh : ∀ u ∈ t.nodes, ∀ s ∈ u.statement?, g u.core s = h u.core s) :
    t.mapStatements g = t.mapStatements h := by
  have hself := hgh t t.self_mem_nodes
  match t with
  | .comment core text => rfl
  | .directive core statement =>
    rw [Tree.mapStatements, Tree.mapStatements]
    exact congrArg _ (hself statement rfl)
  | .block core statement children =>
    have hstatement : g core statement = h core statement := hself statement rfl
    rw [Tree.mapStatements_block, Tree.mapStatements_block, hstatement,
      Forest.map_mapStatements_congr children
        fun u hu => hgh u (Tree.mem_nodes_of_mem_children hu)]

theorem Forest.map_mapStatements_congr {g h : Core → Statement → Statement} (f : Forest)
    (hgh : ∀ u ∈ Forest.nodes f, ∀ s ∈ u.statement?, g u.core s = h u.core s) :
    f.map (Tree.mapStatements g) = f.map (Tree.mapStatements h) := by
  match f with
  | [] => rfl
  | t :: f =>
    rw [List.map_cons, List.map_cons, Tree.mapStatements_congr t fun u hu => hgh u (by simp [hu]),
      Forest.map_mapStatements_congr f fun u hu => hgh u (by simp [hu])]
end

/-! ## Lineages -/

mutual
theorem Tree.trailFrom?_mapStatements {g : Core → Statement → Statement} (id : NodeId)
    (around : List Tree) (t : Tree) :
    (t.mapStatements g).trailFrom? (around.map (Tree.mapStatements g)) id =
      (t.trailFrom? around id).map
        (Prod.map (Tree.mapStatements g) (List.map (Tree.mapStatements g))) := by
  match t with
  | .comment core text =>
    simp only [Tree.mapStatements, Tree.trailFrom?]
    split <;> rfl
  | .directive core statement =>
    simp only [Tree.mapStatements, Tree.trailFrom?]
    split <;> rfl
  | .block core statement children =>
    have hinside := Forest.trailFrom?_map (g := g) id
      (Tree.block core statement children :: around) children
    rw [List.map_cons, Tree.mapStatements_block] at hinside
    rw [Tree.mapStatements_block, Tree.trailFrom?, Tree.trailFrom?]
    simp only [hinside]
    split
    · rw [Option.map_some, Prod.map_apply, Tree.mapStatements_block]
    · rfl

theorem Forest.trailFrom?_map {g : Core → Statement → Statement} (id : NodeId)
    (around : List Tree) (f : Forest) :
    Forest.trailFrom? (around.map (Tree.mapStatements g)) id (f.map (Tree.mapStatements g)) =
      (Forest.trailFrom? around id f).map
        (Prod.map (Tree.mapStatements g) (List.map (Tree.mapStatements g))) := by
  match f with
  | [] => rfl
  | t :: f =>
    rw [List.map_cons, Forest.trailFrom?, Forest.trailFrom?,
      Tree.trailFrom?_mapStatements id around t, Forest.trailFrom?_map id around f]
    cases t.trailFrom? around id <;> rfl
end

theorem Forest.find?_map (f : Forest) (id : NodeId) :
    Forest.find? (f.map (Tree.mapStatements g)) id = (f.find? id).map (Tree.mapStatements g) := by
  have htrail := Forest.trailFrom?_map (g := g) id [] f
  rw [List.map_nil] at htrail
  rw [Forest.find?, Forest.trail?, htrail, Forest.find?, Forest.trail?, Option.map_map,
    Option.map_map]
  rfl

theorem Forest.lineageUpTo_map (f : Forest) (limit : Nat) (link : Option NodeId) :
    Forest.lineageUpTo (f.map (Tree.mapStatements g)) limit link =
      (f.lineageUpTo limit link).map (Tree.mapStatements g) := by
  induction limit generalizing link with
  | zero => rfl
  | succ limit ih =>
    cases link with
    | none => rfl
    | some id =>
      have htrail := Forest.trailFrom?_map (g := g) id [] f
      rw [List.map_nil] at htrail
      rw [Forest.lineageUpTo, Forest.lineageUpTo, Forest.trail?, Forest.trail?, htrail]
      cases Forest.trailFrom? [] id f with
      | none => rfl
      | some trail =>
        obtain ⟨block, around⟩ := trail
        have htop : ((around.map (Tree.mapStatements g)).getLast?.getD
            (block.mapStatements g)).core = (around.getLast?.getD block).core := by
          rw [List.getLast?_map]
          cases around.getLast? <;> simp
        simp only [Option.map_some, Prod.map_apply, htop, ih, List.map_cons, List.map_append]

theorem Forest.lineage_map (f : Forest) (core : Core) :
    Forest.lineage (f.map (Tree.mapStatements g)) core =
      (f.lineage core).map (Tree.mapStatements g) :=
  Forest.lineageUpTo_map f core.id core.ancestor

/-- The same blocks are around a node. -/
theorem Forest.ids_lineage_map (f : Forest) (core : Core) :
    (Forest.lineage (f.map (Tree.mapStatements g)) core).map Tree.id =
      (f.lineage core).map Tree.id := by
  rw [Forest.lineage_map, List.map_map]
  exact List.map_congr_left fun u _ => Tree.mapStatements_id

theorem Forest.root_map (f : Forest) (t : Tree) :
    Forest.root (f.map (Tree.mapStatements g)) (t.mapStatements g) =
      (f.root t).mapStatements g := by
  rw [Forest.root, Forest.root, Tree.mapStatements_core, Forest.lineage_map, List.getLast?_map]
  cases (f.lineage t.core).getLast? <;> rfl

theorem Forest.depth_map (f : Forest) (t : Tree) :
    Forest.depth (f.map (Tree.mapStatements g)) (t.mapStatements g) = f.depth t := by
  rw [Forest.depth, Forest.depth, Tree.mapStatements_core, Forest.lineage_map, List.length_map]

/-! ## Nodes with a property -/

theorem blockIds_map (ts : List Tree) :
    blockIds (ts.map (Tree.mapStatements g)) = blockIds ts := by
  have hblock : Tree.isBlock ∘ Tree.mapStatements g = Tree.isBlock :=
    funext fun t => Tree.mapStatements_isBlock
  rw [blockIds, List.filter_map, hblock, List.map_map, blockIds]
  exact List.map_congr_left fun t _ => Tree.mapStatements_id

mutual
theorem Tree.reached_mapStatements {g : Core → Statement → Statement} {p : Core → Bool} (t : Tree) :
    (t.mapStatements g).reached p = (t.reached p).map (Tree.mapStatements g) := by
  match t with
  | .comment core text =>
    simp only [Tree.mapStatements, Tree.reached]
    split <;> rfl
  | .directive core statement =>
    simp only [Tree.mapStatements, Tree.reached]
    split <;> rfl
  | .block core statement children =>
    rw [Tree.mapStatements_block, Tree.reached, Tree.reached, Forest.reached_map children]
    split
    · rw [List.map_cons, Tree.mapStatements_block]
    · rfl

theorem Forest.reached_map {g : Core → Statement → Statement} {p : Core → Bool} (f : Forest) :
    Forest.reached p (f.map (Tree.mapStatements g)) =
      (Forest.reached p f).map (Tree.mapStatements g) := by
  match f with
  | [] => rfl
  | t :: f =>
    rw [List.map_cons, Forest.reached, Forest.reached, Tree.reached_mapStatements t,
      Forest.reached_map f, List.map_append]
end

theorem Tree.unsavedFiles_mapStatements : (t.mapStatements g).unsavedFiles = t.unsavedFiles := by
  rw [Tree.unsavedFiles, Tree.dirtyNodes, Tree.reached_mapStatements, List.filter_map,
    List.foldl_map, Tree.unsavedFiles, Tree.dirtyNodes]
  simp [Function.comp_def]

mutual
theorem Tree.fileRoots_mapStatements {g : Core → Statement → Statement} {path : Path} (t : Tree) :
    (t.mapStatements g).fileRoots path = (t.fileRoots path).map (Tree.mapStatements g) := by
  match t with
  | .comment core text =>
    simp only [Tree.mapStatements, Tree.fileRoots]
    split <;> rfl
  | .directive core statement =>
    simp only [Tree.mapStatements, Tree.fileRoots]
    split <;> rfl
  | .block core statement children =>
    rw [Tree.mapStatements_block, Tree.fileRoots, Tree.fileRoots, Forest.fileRoots_map children]
    split
    · rw [List.map_singleton, Tree.mapStatements_block]
    · rfl

theorem Forest.fileRoots_map {g : Core → Statement → Statement} {path : Path} (f : Forest) :
    Forest.fileRoots path (f.map (Tree.mapStatements g)) =
      (Forest.fileRoots path f).map (Tree.mapStatements g) := by
  match f with
  | [] => rfl
  | t :: f =>
    rw [List.map_cons, Forest.fileRoots, Forest.fileRoots, Tree.fileRoots_mapStatements t,
      Forest.fileRoots_map f, List.map_append]
end

/-! ## Searches -/

mutual
/-- As long as the same blocks are active, a walk meets the same nodes. -/
theorem Tree.descendants_mapStatements {g : Core → Statement → Statement} {exclude : Bool}
    (t : Tree) (hactive : ∀ u ∈ t.nodes, (u.mapStatements g).isActive = u.isActive) :
    (t.mapStatements g).descendants exclude =
      (t.descendants exclude).map (Tree.mapStatements g) := by
  match t with
  | .comment core text => rfl
  | .directive core statement => rfl
  | .block core statement children =>
    rw [Tree.mapStatements_block, Tree.descendants, Tree.descendants,
      Forest.walk_map children fun u hu => hactive u (Tree.mem_nodes_of_mem_children hu)]

theorem Forest.walk_map {g : Core → Statement → Statement} {exclude : Bool} (f : Forest)
    (hactive : ∀ u ∈ Forest.nodes f, (u.mapStatements g).isActive = u.isActive) :
    Forest.walk exclude (f.map (Tree.mapStatements g)) =
      (Forest.walk exclude f).map (Tree.mapStatements g) := by
  match f with
  | [] => rfl
  | t :: f =>
    rw [List.map_cons, Forest.walk, Forest.walk,
      hactive t (Forest.mem_nodes_of_mem (List.mem_cons_self ..)),
      Tree.descendants_mapStatements t fun u hu => hactive u (by simp [hu]),
      Forest.walk_map f fun u hu => hactive u (by simp [hu])]
    split
    · rfl
    · rw [List.map_cons, List.map_append]
end

theorem Tree.findBlocks_mapStatements {exclude : Bool} {name : String}
    (hg : ∀ core s, (g core s).name = s.name)
    (hactive : ∀ u ∈ t.nodes, (u.mapStatements g).isActive = u.isActive) :
    (t.mapStatements g).findBlocks name exclude =
      (t.findBlocks name exclude).map (Tree.mapStatements g) := by
  rw [Tree.findBlocks, Tree.descendants_mapStatements t hactive, List.filter_map, Tree.findBlocks]
  congr 2
  exact funext fun u => by simp [Tree.mapStatements_name hg]

theorem Tree.findDirectives_mapStatements {exclude : Bool} {name : String}
    (hg : ∀ core s, (g core s).name = s.name)
    (hactive : ∀ u ∈ t.nodes, (u.mapStatements g).isActive = u.isActive) :
    (t.mapStatements g).findDirectives name exclude =
      (t.findDirectives name exclude).map (Tree.mapStatements g) := by
  rw [Tree.findDirectives, Tree.descendants_mapStatements t hactive, List.filter_map,
    Tree.findDirectives]
  congr 2
  exact funext fun u => by simp [Tree.mapStatements_name hg]

/-! ## Changes in place -/

mutual
/-- A change of one node can be made before or after a change of all statements. -/
theorem Tree.mapStatements_update {g : Core → Statement → Statement} {id : NodeId}
    {h k : Tree → Tree} (t : Tree)
    (hk : ∀ u ∈ t.nodes, u.id = id → (h u).mapStatements g = k (u.mapStatements g)) :
    (t.update id h).mapStatements g = (t.mapStatements g).update id k := by
  by_cases hid : t.id = id
  · rw [Tree.update_self hid, hk t t.self_mem_nodes hid, Tree.update_self]
    rw [Tree.mapStatements_id, hid]
  · have hself : (t.core.id == id) = false := beq_false_of_ne hid
    match t with
    | .comment core text =>
      simp only [Tree.core] at hself
      simp [Tree.update, Tree.mapStatements, hself]
    | .directive core statement =>
      simp only [Tree.core] at hself
      simp [Tree.update, Tree.mapStatements, hself]
    | .block core statement children =>
      simp only [Tree.core] at hself
      rw [Tree.update, hself, if_neg (by simp), Tree.mapStatements_block, Tree.mapStatements_block,
        Tree.update, hself, if_neg (by simp), Forest.mapStatements_update children
          fun u hu => hk u (Tree.mem_nodes_of_mem_children hu)]

theorem Forest.mapStatements_update {g : Core → Statement → Statement} {id : NodeId}
    {h k : Tree → Tree} (f : Forest)
    (hk : ∀ u ∈ Forest.nodes f, u.id = id → (h u).mapStatements g = k (u.mapStatements g)) :
    (f.update id h).map (Tree.mapStatements g) =
      Forest.update id k (f.map (Tree.mapStatements g)) := by
  match f with
  | [] => rfl
  | t :: f =>
    rw [Forest.update, List.map_cons, List.map_cons, Forest.update,
      Tree.mapStatements_update t fun u hu => hk u (by simp [hu]),
      Forest.mapStatements_update f fun u hu => hk u (by simp [hu])]
end

theorem Tree.mapStatements_withChildren {h k : Forest → Forest}
    (hk : ∀ f : Forest, (h f).map (Tree.mapStatements g) = k (f.map (Tree.mapStatements g))) :
    (t.withChildren h).mapStatements g = (t.mapStatements g).withChildren k := by
  cases t with
  | comment core text => rfl
  | directive core statement => rfl
  | block core statement children =>
    rw [Tree.withChildren, Tree.mapStatements_block, Tree.mapStatements_block, Tree.withChildren,
      hk]

/-- A node that is put among the children of a block gets the other statement too. -/
theorem Forest.map_insertChild (f : Forest) (id : NodeId) (index : Nat) (u : Tree) :
    (f.update id (Tree.withChildren (List.insertIdx · index u))).map (Tree.mapStatements g) =
      Forest.update id (Tree.withChildren (List.insertIdx · index (u.mapStatements g)))
        (f.map (Tree.mapStatements g)) :=
  Forest.mapStatements_update f fun _ _ _ =>
    Tree.mapStatements_withChildren fun _ => List.map_insertIdx ..

theorem Forest.map_filterChildren (f : Forest) (id child : NodeId) :
    (f.update id (Tree.withChildren (List.filter (·.id != child)))).map (Tree.mapStatements g) =
      Forest.update id (Tree.withChildren (List.filter (·.id != child)))
        (f.map (Tree.mapStatements g)) := by
  refine Forest.mapStatements_update f fun _ _ _ => Tree.mapStatements_withChildren fun f => ?_
  rw [List.filter_map]
  congr 2
  exact funext fun u => by simp

mutual
theorem Tree.mapStatements_mapCores {g : Core → Statement → Statement} {k : Core → Core}
    (hk : ∀ core, g (k core) = g core) (t : Tree) :
    (t.mapCores k).mapStatements g = (t.mapStatements g).mapCores k := by
  match t with
  | .comment core text => rfl
  | .directive core statement => simp [Tree.mapCores, Tree.mapStatements, hk]
  | .block core statement children =>
    rw [Tree.mapCores, Forest.mapCores_eq_map, Tree.mapStatements_block, Tree.mapStatements_block,
      Tree.mapCores, Forest.mapCores_eq_map, hk, Forest.map_mapCores hk children]

theorem Forest.map_mapCores {g : Core → Statement → Statement} {k : Core → Core}
    (hk : ∀ core, g (k core) = g core) (f : Forest) :
    (f.map (Tree.mapCores k)).map (Tree.mapStatements g) =
      (f.map (Tree.mapStatements g)).map (Tree.mapCores k) := by
  match f with
  | [] => rfl
  | t :: f =>
    rw [List.map_cons, List.map_cons, List.map_cons, List.map_cons,
      Tree.mapStatements_mapCores hk t, Forest.map_mapCores hk f]
end

theorem IgnoresFlags.record (hg : IgnoresFlags g) (id : NodeId) (around : List NodeId)
    (core : Core) : g (core.record id around) = g core :=
  hg _ _ (Core.clean_record id around core)

/-- A change is recorded at the same nodes. -/
theorem Forest.markModified_map (hg : IgnoresFlags g) (f : Forest) (core : Core) :
    (f.markModified core).map (Tree.mapStatements g) =
      Forest.markModified (f.map (Tree.mapStatements g)) core := by
  rw [Forest.markModified_eq, Forest.markModified_eq, Forest.mapCores_eq_map,
    Forest.mapCores_eq_map, Forest.map_mapCores (hg.record _ _), Forest.ids_lineage_map]

theorem Forest.markDirtyAbove_map (hg : IgnoresFlags g) (f : Forest) (core : Core) :
    (f.markDirtyAbove core).map (Tree.mapStatements g) =
      Forest.markDirtyAbove (f.map (Tree.mapStatements g)) core := by
  rw [Forest.markDirtyAbove, Forest.markDirtyAbove, Forest.mapCores_eq_map,
    Forest.mapCores_eq_map, Forest.map_mapCores, Forest.ids_lineage_map]
  intro c
  refine hg _ _ ?_
  split <;> rfl

mutual
theorem Tree.settle_mapStatements {g : Core → Statement → Statement} (hg : IgnoresFlags g)
    (files : List Path) (t : Tree) :
    (t.settle files).mapStatements g = (t.mapStatements g).settle files := by
  match t with
  | .comment core text =>
    simp only [Tree.mapStatements, Tree.settle]
    split <;> rfl
  | .directive core statement =>
    simp only [Tree.mapStatements, Tree.settle]
    split
    · rw [Tree.mapStatements, hg (core.settle files false) core rfl]
    · rfl
  | .block core statement children =>
    have hinside := Forest.settle_map hg files children
    have hdirty : (Forest.settle files (children.map (Tree.mapStatements g))).any
        (fun t => t.core.dirty) = (Forest.settle files children).any fun t => t.core.dirty := by
      rw [← hinside, List.any_map]
      exact congrArg (List.any _) (funext fun t => by simp)
    rw [Tree.mapStatements_block, Tree.settle, Tree.settle]
    split
    · simp only [Tree.mapStatements_block, hinside, hdirty]
      rw [hg (core.settle files _) core rfl]
    · rw [Tree.mapStatements_block]

theorem Forest.settle_map {g : Core → Statement → Statement} (hg : IgnoresFlags g)
    (files : List Path) (f : Forest) :
    (Forest.settle files f).map (Tree.mapStatements g) =
      Forest.settle files (f.map (Tree.mapStatements g)) := by
  match f with
  | [] => rfl
  | t :: f =>
    rw [Forest.settle, List.map_cons, List.map_cons, Forest.settle,
      Tree.settle_mapStatements hg files t, Forest.settle_map hg files f]
end

mutual
theorem Tree.markClean_mapStatements {g : Core → Statement → Statement} (hg : IgnoresFlags g)
    (t : Tree) : t.markClean.mapStatements g = (t.mapStatements g).markClean := by
  match t with
  | .comment core text => rfl
  | .directive core statement =>
    simp only [Tree.mapStatements, Tree.markClean]
    rw [hg core.clean core rfl]
  | .block core statement children =>
    rw [Tree.mapStatements_block, Tree.markClean, Tree.markClean]
    split
    · rw [Tree.mapStatements_block, Forest.markClean_map hg children, hg core.clean core rfl]
    · rw [Tree.mapStatements_block]

theorem Forest.markClean_map {g : Core → Statement → Statement} (hg : IgnoresFlags g)
    (f : Forest) :
    (Forest.markClean f).map (Tree.mapStatements g) =
      Forest.markClean (f.map (Tree.mapStatements g)) := by
  match f with
  | [] => rfl
  | t :: f =>
    rw [Forest.markClean, List.map_cons, List.map_cons, Forest.markClean,
      Tree.markClean_mapStatements hg t, Forest.markClean_map hg f]
end

mutual
theorem Tree.sweep_mapStatements {g : Core → Statement → Statement} (held : List NodeId)
    (t : Tree) :
    (t.mapStatements g).sweep held = (t.sweep held).map (Tree.mapStatements g) := by
  match t with
  | .comment core text =>
    simp only [Tree.mapStatements, Tree.sweep]
    split <;> rfl
  | .directive core statement =>
    simp only [Tree.mapStatements, Tree.sweep]
    split <;> rfl
  | .block core statement children =>
    rw [Tree.mapStatements_block, Tree.sweep, Tree.sweep, Forest.sweep_map held children]
    split
    · rw [List.map_singleton, Tree.mapStatements_block]
    · rfl

theorem Forest.sweep_map {g : Core → Statement → Statement} (held : List NodeId) (f : Forest) :
    Forest.sweep held (f.map (Tree.mapStatements g)) =
      (Forest.sweep held f).map (Tree.mapStatements g) := by
  match f with
  | [] => rfl
  | t :: f =>
    rw [List.map_cons, Forest.sweep, Forest.sweep, Tree.sweep_mapStatements held t,
      Forest.sweep_map held f, List.map_append]
end

/-! ## New nodes -/

/-- What a new node shares with others: policy and journal are those of the block it is linked to,
or it starts a tree of its own. -/
def Workspace.kinship (w : Workspace) (b : Blueprint) : Kinship :=
  match b.ancestor.bind w.forest.find? with
  | some block => ⟨block.core.policy, block.core.journal⟩
  | none => ⟨b.policy.getD Policy.default, w.next⟩

/-- A new node with the given number, and the next free number. -/
def Blueprint.make (b : Blueprint) (kin : Kinship) (id : NodeId) (content : NodeContent)
    (standing : Bool) : Except Error (Tree × NodeId) :=
  match b.origin with
  | none => .error (.invalidConstruction .noOrigin)
  | some origin =>
    let path := b.path.getD origin.fragment.source.path
    if path.text.isEmpty then .error (.invalidConstruction .noFile)
    else
      let core : Core :=
        { id, ancestor := b.ancestor, path, origin, policy := kin.policy, journal := kin.journal,
          dirty := b.dirty, modified := b.dirty }
      let made : Forest × NodeId :=
        match content with
        | .block _ _ =>
          if origin.synthetic then ([], id + 1)
          else Forest.ofFragments kin id (id + 1) origin.fragment.children
        | _ => ([], id + 1)
      .ok (content.tree core standing made.1, made.2)

/-- A new node has nothing inside, or what was parsed in its fragment. -/
theorem Blueprint.make_cases {b : Blueprint} {kin : Kinship} {next : NodeId} {content : NodeContent}
    {standing : Bool} (h : b.make kin id content standing = .ok (t, next)) :
    t.id = id ∧ (t.children = [] ∨ t.core.origin.synthetic = false ∧
      t.children = (Forest.ofFragments kin id (id + 1) t.core.origin.fragment.children).1) := by
  rw [Blueprint.make] at h
  split at h
  · simp at h
  · simp only at h
    split at h
    · simp at h
    · obtain ⟨rfl, -⟩ := Prod.mk.inj (Except.ok.inj h)
      cases content with
      | comment text => exact ⟨rfl, .inl rfl⟩
      | directive name parameters => exact ⟨rfl, .inl rfl⟩
      | block name parameters =>
        refine ⟨rfl, ?_⟩
        simp only [NodeContent.tree, Tree.children, Tree.core]
        split
        · exact .inl rfl
        · rename_i hparsed
          exact .inr ⟨Bool.eq_false_iff.2 hparsed, rfl⟩

/-- The forest with a new node, which may count as changed. -/
def Forest.adopt (f : Forest) (dirty : Bool) (t : Tree) : Forest :=
  if dirty then Forest.markDirtyAbove (t :: f) t.core else t :: f

/-- What a new node is depends on the block it is linked to, and on no other node. -/
theorem Workspace.construct_eq (w : Workspace) (b : Blueprint) (content : NodeContent)
    (standing : Bool) :
    w.construct b content standing =
      (b.make (w.kinship b) w.next content standing).map fun (t, next) =>
        (t, ⟨w.forest.adopt b.dirty t, next, w.journal⟩) := by
  rw [Workspace.construct, Blueprint.make]
  cases b.origin with
  | none => rfl
  | some origin =>
    simp only
    split
    · rfl
    · cases content <;> rfl

theorem Forest.adopt_map (hg : IgnoresFlags g) (f : Forest) (dirty : Bool) (t : Tree) :
    (f.adopt dirty t).map (Tree.mapStatements g) =
      Forest.adopt (f.map (Tree.mapStatements g)) dirty (t.mapStatements g) := by
  rw [Forest.adopt, Forest.adopt, Tree.mapStatements_core]
  split
  · exact Forest.markDirtyAbove_map hg _ _
  · rfl

/-- Where a node may be added to a block: at a position, or at the end. -/
def Tree.placeFor (b : Tree) (content : NodeContent) (position : Option Nat) : Except Error Nat :=
  if content.name? == some "" then .error .emptyName
  else if b.children.length < position.getD b.children.length then
    .error (.indexOutOfRange (position.getD b.children.length) b.children.length)
  else .ok (position.getD b.children.length)

/-- The forest with a node added to a block. -/
def Forest.graft (f : Forest) (b : Tree) (index : Nat) (t : Tree) : Forest :=
  Forest.markModified (f.update b.id (Tree.withChildren (List.insertIdx · index t))) b.core

/-- Whether a node can be added does not depend on other blocks, and they play no part in it. -/
theorem Workspace.addChild_eq (w : Workspace) (b : Tree) (content : NodeContent)
    (position : Option Nat) :
    w.addChild b content position =
      (b.placeFor content position).map fun index =>
        (content.tree (w.childCore b) (w.enabledInside b) [],
          ⟨w.forest.graft b index (content.tree (w.childCore b) (w.enabledInside b) []), w.next + 1,
            w.journal⟩) := by
  rw [Workspace.addChild, Tree.placeFor]
  split
  · rfl
  · simp only
    split <;> rfl

theorem Tree.placeFor_mapStatements (b : Tree) (content : NodeContent) (position : Option Nat) :
    (b.mapStatements g).placeFor content position = b.placeFor content position := by
  rw [Tree.placeFor, Tree.mapStatements_children, List.length_map, Tree.placeFor]

theorem Forest.graft_map (hg : IgnoresFlags g) (f : Forest) (b : Tree) (index : Nat) (t : Tree) :
    (f.graft b index t).map (Tree.mapStatements g) =
      Forest.graft (f.map (Tree.mapStatements g)) (b.mapStatements g) index
        (t.mapStatements g) := by
  rw [Forest.graft, Forest.markModified_map hg, Forest.map_insertChild, Forest.graft,
    Tree.mapStatements_id, Tree.mapStatements_core]

/-! ## Workspaces -/

namespace Workspace

variable {w : Workspace}

/-- Change the statements of all nodes. -/
def mapStatements (g : Core → Statement → Statement) (w : Workspace) : Workspace :=
  { w with forest := w.forest.map (Tree.mapStatements g) }

theorem kinship_mapStatements (b : Blueprint) : (w.mapStatements g).kinship b = w.kinship b := by
  have hfind : b.ancestor.bind (w.mapStatements g).forest.find? =
      (b.ancestor.bind w.forest.find?).map (Tree.mapStatements g) := by
    cases b.ancestor with
    | none => rfl
    | some id => exact Forest.find?_map w.forest id
  rw [Workspace.kinship, hfind, Workspace.kinship]
  cases b.ancestor.bind w.forest.find? <;> simp [mapStatements]

/-- The same node is taken out of a block. -/
theorem deleteChild_mapStatements (hg : IgnoresFlags g) (b : Tree) (child : NodeId) :
    (w.mapStatements g).deleteChild (b.mapStatements g) child =
      (w.deleteChild b child).map (mapStatements g) := by
  have hfind : List.find? (fun u => u.id == child) (b.mapStatements g).children =
      (List.find? (fun u => u.id == child) b.children).map (Tree.mapStatements g) := by
    have hid : (fun u : Tree => u.id == child) ∘ Tree.mapStatements g = fun u => u.id == child :=
      funext fun u => by simp
    rw [Tree.mapStatements_children, List.find?_map, hid]
  rw [deleteChild, hfind, deleteChild]
  cases List.find? (fun u => u.id == child) b.children with
  | none => rfl
  | some t =>
    simp only [Option.map_some, Tree.mapStatements_id, Tree.mapStatements_core]
    change Except.ok (Workspace.mk _ _ _) = Except.ok (Workspace.mk _ _ _)
    rw [Forest.markModified_map hg, List.map_cons, Forest.map_filterChildren]
    rfl

theorem save_mapStatements (t : Tree) (message : String) :
    (w.mapStatements g).save (t.mapStatements g) message =
      ((w.save t message).1, (w.save t message).2.mapStatements g) := by
  rw [save, Tree.mapStatements_core, Tree.unsavedFiles_mapStatements, save]
  split <;> rfl

theorem markClean_mapStatements (hg : IgnoresFlags g) (t : Tree) :
    (w.mapStatements g).markClean (t.mapStatements g) = (w.markClean t).mapStatements g := by
  rw [markClean, Tree.mapStatements_id, markClean]
  change Workspace.mk _ _ _ = Workspace.mk _ _ _
  rw [Forest.mapStatements_update w.forest fun u _ _ => Tree.markClean_mapStatements hg u]
  rfl

theorem settle_mapStatements (hg : IgnoresFlags g) (root : NodeId) (files : List Path) :
    (⟨Forest.update root (Tree.settle files) (w.mapStatements g).forest, w.next, w.journal⟩ :
      Workspace) =
      mapStatements g ⟨w.forest.update root (Tree.settle files), w.next, w.journal⟩ := by
  change Workspace.mk _ _ _ = Workspace.mk _ _ _
  rw [Forest.mapStatements_update w.forest fun u _ _ => Tree.settle_mapStatements hg files u]
  rfl

theorem sweep_mapStatements (held : List NodeId) :
    (⟨Forest.sweep held (w.mapStatements g).forest, w.next, w.journal⟩ : Workspace) =
      mapStatements g ⟨w.forest.sweep held, w.next, w.journal⟩ := by
  change Workspace.mk _ _ _ = Workspace.mk _ _ _
  rw [← Forest.sweep_map]
  rfl

end Workspace

end HttpdConf
