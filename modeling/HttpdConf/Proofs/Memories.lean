import HttpdConf.Proofs.Exclusion
import HttpdConf.Proofs.Statements
import HttpdConf.Tree.Equality

/-!
# What nodes remember

A child that is listed for the first time remembers whether it is in force. This is all that listing
does, and a node is asked for it only when it has no live block around it. So forests that differ in
what their nodes remember look the same in every other respect, and nodes are in force alike as long
as the memories of the outermost ones agree.

## Main definitions

* `Tree.recast`: a tree with other memories
* `Forest.IsSteadyFor`: the outermost nodes go by the same, with other memories
* `Memories.after`: the memories after the children of some blocks have been listed
* `Writer.IgnoresMemories`: a writer does not look at what nodes remember

## Main results

* `Workspace.Sound.enabled_recast`: nodes are in force alike
* `Workspace.Sound.list_eq_recast`: what listing does to memories
* `Forest.compareNodes_recast`, `Forest.render_recast`: what does not depend on memories
* `Workspace.construct_recast`, `Workspace.addChild_recast`, `Workspace.setParameters_recast`,
  `Workspace.writeFiles_recast`: operations do the same, whatever nodes remember
-/

namespace HttpdConf

/-- What the nodes with some numbers remember. -/
abbrev Memories := NodeId → Option Bool

variable {μ ν e : Memories} {w : Workspace} {t t' u : Tree} {f : Forest}

/-- A statement with another memory. -/
def Statement.recast (μ : Memories) (core : Core) (s : Statement) : Statement :=
  { s with standing := μ core.id }

/-- A tree with other memories. -/
def Tree.recast (μ : Memories) (t : Tree) : Tree := t.mapStatements (Statement.recast μ)

theorem Statement.ignoresFlags_recast : IgnoresFlags (Statement.recast μ) := by
  intro core core' h
  have hid : core.clean.id = core'.clean.id := by rw [h]
  funext s
  exact congrArg (fun id => { s with standing := μ id }) hid

/-! ## Trees with other memories -/

namespace Tree

@[simp]
theorem recast_core : (t.recast μ).core = t.core := mapStatements_core

@[simp]
theorem recast_id : (t.recast μ).id = t.id := mapStatements_id

@[simp]
theorem recast_isBlock : (t.recast μ).isBlock = t.isBlock := mapStatements_isBlock

theorem recast_children : (t.recast μ).children = t.children.map (Tree.recast μ) :=
  mapStatements_children

@[simp]
theorem recast_name : (t.recast μ).name = t.name := mapStatements_name fun _ _ => rfl

@[simp]
theorem recast_parameters : (t.recast μ).parameters = t.parameters := by
  cases t <;> rfl

@[simp]
theorem recast_isActive : (t.recast μ).isActive = t.isActive := by
  cases t <;> rfl

theorem recast_statement? :
    (t.recast μ).statement? = t.statement?.map (Statement.recast μ t.core) := by
  cases t <;> rfl

theorem recast_forget : (t.recast μ).forget = t.forget := by
  rw [recast, forget, mapStatements_mapStatements, forget]
  rfl

theorem recast_bare : (t.recast μ).bare = t.bare := bare_eq_of_forget_eq recast_forget

/-- The last memory counts. -/
theorem recast_recast : (t.recast μ).recast ν = t.recast ν := by
  rw [recast, recast, mapStatements_mapStatements, recast]
  rfl

theorem recast_congr (h : ∀ u ∈ t.nodes, ∀ _ ∈ u.statement?, μ u.id = ν u.id) :
    t.recast μ = t.recast ν :=
  mapStatements_congr t fun u hu s hs => congrArg (fun m => { s with standing := m }) (h u hu s hs)

/-- A tree that has the memories already stays as it is. -/
theorem recast_self (h : ∀ u ∈ t.nodes, ∀ s ∈ u.statement?, s.standing = μ u.id) :
    t.recast μ = t := by
  refine (mapStatements_congr t fun u hu s hs => ?_).trans t.mapStatements_self
  rw [Statement.recast, ← Tree.id, ← h u hu s hs]

theorem recast_block (core : Core) (statement : Statement) (children : Forest) :
    (block core statement children).recast μ =
      block core (statement.recast μ core) (children.map (Tree.recast μ)) :=
  mapStatements_block core statement children

/-- Nodes whose memories are the same go by the same. -/
theorem standing_recast (h : ∀ s ∈ t.statement?, (μ t.id).getD true = s.standing.getD true) :
    (t.recast μ).standing = t.standing := by
  rw [standing, recast_statement?, standing]
  cases hs : t.statement? with
  | none => rfl
  | some s => exact h s hs

end Tree

namespace Forest

theorem map_recast_recast (f : Forest) :
    (f.map (Tree.recast μ)).map (Tree.recast ν) = f.map (Tree.recast ν) := by
  rw [List.map_map]
  exact List.map_congr_left fun _ _ => Tree.recast_recast

theorem map_recast_congr (h : ∀ t ∈ Forest.nodes f, ∀ _ ∈ t.statement?, μ t.id = ν t.id) :
    f.map (Tree.recast μ) = f.map (Tree.recast ν) :=
  List.map_congr_left fun _ ht => Tree.recast_congr fun u hu =>
    h u (Forest.mem_nodes.2 ⟨_, ht, hu⟩)

theorem nodes_recast (f : Forest) :
    Forest.nodes (f.map (Tree.recast μ)) = (Forest.nodes f).map (Tree.recast μ) :=
  Forest.nodes_map f

theorem find?_recast (f : Forest) (id : NodeId) :
    Forest.find? (f.map (Tree.recast μ)) id = (f.find? id).map (Tree.recast μ) :=
  Forest.find?_map f id

theorem lineage_recast (f : Forest) (core : Core) :
    Forest.lineage (f.map (Tree.recast μ)) core = (f.lineage core).map (Tree.recast μ) :=
  Forest.lineage_map f core

theorem ancestor?_recast (f : Forest) (core : Core) :
    Forest.ancestor? (f.map (Tree.recast μ)) core = (f.ancestor? core).map (Tree.recast μ) := by
  rw [Forest.ancestor?, Forest.ancestor?]
  cases core.ancestor with
  | none => rfl
  | some id => exact find?_recast f id

theorem root_recast (f : Forest) (t : Tree) :
    Forest.root (f.map (Tree.recast μ)) (t.recast μ) = (f.root t).recast μ :=
  Forest.root_map f t

/-- The memories are those of the nodes. -/
def Remembers (f : Forest) (μ : Memories) : Prop :=
  ∀ t ∈ Forest.nodes f, ∀ s ∈ t.statement?, s.standing = μ t.id

theorem remembers_recast (f : Forest) : Forest.Remembers (f.map (Tree.recast μ)) μ := by
  intro t ht s hs
  rw [nodes_recast] at ht
  obtain ⟨u, -, rfl⟩ := List.mem_map.1 ht
  rw [Tree.recast_statement?] at hs
  obtain ⟨s', -, rfl⟩ := Option.map_eq_some_iff.1 hs
  rw [Tree.recast_id]
  rfl

theorem Remembers.recast_eq (h : f.Remembers μ) : f.map (Tree.recast μ) = f :=
  (List.map_congr_left fun _ ht => Tree.recast_self fun u hu =>
    h u (Forest.mem_nodes.2 ⟨_, ht, hu⟩)).trans (List.map_id f)

theorem Remembers.recast_mem (h : f.Remembers μ) (ht : t ∈ Forest.nodes f) : t.recast μ = t :=
  Tree.recast_self fun u hu => h u ((Forest.nodes_sublist _ ht).subset hu)

theorem remembers_of_recast_eq (h : f.map (Tree.recast μ) = f) : f.Remembers μ :=
  h ▸ remembers_recast f

end Forest

/-- What the node of a number remembers. -/
def Workspace.memories (w : Workspace) : Memories := fun id =>
  (w.forest.find? id).bind fun t => t.statement?.bind Statement.standing

theorem Workspace.Sound.remembers (hw : w.Sound) : w.forest.Remembers w.memories := by
  intro t ht s hs
  rw [Workspace.memories, hw.tidy.find?_eq ht, Option.bind_some, Option.mem_def.1 hs,
    Option.bind_some]

/-! ## Being in force -/

/-- An outermost node goes by what it remembers. -/
theorem Forest.enabled_of_lineage (h : f.lineage t.core = []) : f.enabled t = t.standing := by
  rw [Forest.enabled, Forest.root, h]
  rfl

/-- The outermost nodes go by the same, with other memories. -/
def Forest.IsSteadyFor (f : Forest) (μ : Memories) : Prop :=
  ∀ t ∈ Forest.nodes f, f.ancestor? t.core = none → (t.recast μ).standing = t.standing

namespace Workspace.Sound

variable (hw : w.Sound)
include hw

theorem root_of_ancestor {block : Tree} (ht : t ∈ Forest.nodes w.forest)
    (h : w.forest.ancestor? t.core = some block) : w.forest.root t = w.forest.root block := by
  rw [Forest.root, hw.lineage_eq ht, h, List.getLast?_cons, Option.getD_some, Forest.root]

/-- Nothing is around a root. -/
theorem ancestor?_root (ht : t ∈ Forest.nodes w.forest) :
    w.forest.ancestor? (w.forest.root t).core = none := by
  induction hid : t.id using Nat.strong_induction_on generalizing t with
  | _ id ih =>
    cases hlink : w.forest.ancestor? t.core with
    | none =>
      rw [Forest.root, hw.lineage_eq ht, hlink]
      exact hlink
    | some block =>
      rw [hw.root_of_ancestor ht hlink]
      obtain ⟨a, ha, hfind⟩ := Option.bind_eq_some_iff.1 hlink
      obtain ⟨hblock, rfl⟩ := Forest.mem_nodes_of_find? hfind
      exact ih block.id (hid ▸ hw.older t ht _ ha) hblock rfl

theorem lineage_eq_nil_iff (ht : t ∈ Forest.nodes w.forest) :
    w.forest.lineage t.core = [] ↔ w.forest.ancestor? t.core = none := by
  rw [hw.lineage_eq ht]
  cases w.forest.ancestor? t.core <;> simp

/-- Nodes are in force alike, with other memories. -/
theorem enabled_recast (hsteady : w.forest.IsSteadyFor μ)
    (ht : ∃ u ∈ Forest.nodes w.forest, u.core = t.core) (hcore : t'.core = t.core)
    (hself : w.forest.lineage t.core = [] → t'.standing = t.standing) :
    Forest.enabled (w.forest.map (Tree.recast μ)) t' = w.forest.enabled t := by
  have hlineage : Forest.lineage (w.forest.map (Tree.recast μ)) t'.core =
      (w.forest.lineage t.core).map (Tree.recast μ) := by
    rw [hcore, Forest.lineage_recast]
  cases hnil : w.forest.lineage t.core with
  | nil =>
    rw [hnil, List.map_nil] at hlineage
    rw [Forest.enabled_of_lineage hlineage, Forest.enabled_of_lineage hnil, hself hnil]
  | cons block around =>
    obtain ⟨u, hu, hucore⟩ := ht
    have hactive : Tree.isActive ∘ Tree.recast μ = Tree.isActive :=
      funext fun _ => Tree.recast_isActive
    -- the root is that of a live node, and itself outermost
    have hroot : w.forest.root t = w.forest.root u := by
      rw [Forest.root, Forest.root, hucore, hnil, List.getLast?_cons, Option.getD_some,
        Option.getD_some]
    have hroot' : Forest.root (w.forest.map (Tree.recast μ)) t' = (w.forest.root t).recast μ := by
      rw [Forest.root, hlineage, Forest.root, hnil, List.getLast?_map, List.getLast?_cons]
      rfl
    rw [Forest.enabled, hroot', hlineage, List.all_map, hactive, hroot,
      hsteady _ (hw.tidy.root_mem hu) (hw.ancestor?_root hu), ← hroot, Forest.enabled]

theorem enabled_recast_of_mem (hsteady : w.forest.IsSteadyFor μ)
    (ht : t ∈ Forest.nodes w.forest) :
    Forest.enabled (w.forest.map (Tree.recast μ)) (t.recast μ) = w.forest.enabled t :=
  hw.enabled_recast hsteady ⟨t, ht, rfl⟩ Tree.recast_core fun hlineage =>
    hsteady t ht ((hw.lineage_eq_nil_iff ht).1 hlineage)

end Workspace.Sound

/-! ## Listing -/

/-- The numbers of the children of some blocks. -/
def Forest.childIds (f : Forest) (blocks : List NodeId) : List NodeId :=
  (((Forest.nodes f).filter fun t => blocks.contains t.id).flatMap Tree.children).map Tree.id

theorem Forest.mem_childIds {blocks : List NodeId} {id : NodeId} :
    id ∈ f.childIds blocks ↔
      ∃ t ∈ Forest.nodes f, t.id ∈ blocks ∧ ∃ u ∈ t.children, u.id = id := by
  simp only [Forest.childIds, List.mem_map, List.mem_flatMap, List.mem_filter,
    List.contains_eq_mem, decide_eq_true_eq]
  constructor
  · rintro ⟨u, ⟨t, ⟨ht, hblock⟩, hu⟩, hid⟩
    exact ⟨t, ht, hblock, u, hu, hid⟩
  · rintro ⟨t, ht, hblock, u, hu, hid⟩
    exact ⟨u, ⟨t, ⟨ht, hblock⟩, hu⟩, hid⟩

/-- Children are the same, with other memories. -/
theorem Forest.childIds_recast (f : Forest) (blocks : List NodeId) :
    Forest.childIds (f.map (Tree.recast μ)) blocks = f.childIds blocks := by
  have hblocks : (fun t : Tree => blocks.contains t.id) ∘ Tree.recast μ =
      fun t => blocks.contains t.id := funext fun t => by simp
  rw [Forest.childIds, Forest.nodes_recast, List.filter_map, hblocks, List.flatMap_map,
    List.map_flatMap, Forest.childIds, List.map_flatMap]
  congr 1
  funext t
  rw [Tree.recast_children, List.map_map]
  exact List.map_congr_left fun _ _ => Tree.recast_id

/-- The memories when the nodes with some numbers have been listed; `e` tells which nodes are in
force. -/
def Memories.after (μ e : Memories) (ids : List NodeId) : Memories := fun id =>
  if ids.contains id then (μ id).or (e id) else μ id

theorem Memories.after_of_mem {ids : List NodeId} {id : NodeId} (h : id ∈ ids) :
    μ.after e ids id = (μ id).or (e id) := by
  simp [Memories.after, h]

theorem Memories.after_of_not_mem {ids : List NodeId} {id : NodeId} (h : id ∉ ids) :
    μ.after e ids id = μ id := by
  simp [Memories.after, h]

namespace Workspace.Sound

variable {blocks : List NodeId}

theorem child_mem_childIds (hw : w.Sound) (ht : t ∈ Forest.nodes w.forest) (hu : u ∈ t.children) :
    u.id ∈ w.forest.childIds blocks ↔ t.id ∈ blocks := by
  rw [Forest.mem_childIds]
  constructor
  · rintro ⟨t', ht', hblock, u', hu', hid⟩
    -- the child has one link only
    obtain rfl := hw.tidy.eq_of_id_eq (Forest.mem_nodes_of_child ht' hu')
      (Forest.mem_nodes_of_child ht hu) hid
    have hlink := (hw.tidy.linked t' ht' u' hu').symm.trans (hw.tidy.linked t ht u' hu)
    rwa [← Option.some.inj hlink]
  · exact fun hblock => ⟨t, ht, hblock, u, hu, rfl⟩

theorem top_not_mem_childIds (hw : w.Sound) (ht : t ∈ w.forest) :
    t.id ∉ w.forest.childIds blocks := by
  rw [Forest.mem_childIds]
  rintro ⟨p, hp, -, u, hu, hid⟩
  have hnode : t ∈ Forest.nodes w.forest := Forest.mem_nodes_of_mem ht
  obtain rfl := hw.tidy.eq_of_id_eq (Forest.mem_nodes_of_child hp hu) hnode hid
  -- nothing encloses the top of a tree, in the tree or elsewhere
  have hencloses : p ∈ (Forest.nodes w.forest).filter (Tree.encloses u.id) :=
    List.mem_filter.2 ⟨hp, Tree.encloses_iff.2 ⟨u, Forest.mem_nodes_of_mem hu, rfl⟩⟩
  rw [hw.tidy.filter_encloses_eq ht u.self_mem_nodes, hw.tidy.filter_encloses_top hnode]
    at hencloses
  exact List.not_mem_nil hencloses

end Workspace.Sound

/-- A node that is not listed keeps its memory, but those inside it may not. -/
theorem Tree.recast_of_standing (h : ∀ s ∈ t.statement?, s.standing = μ t.id) :
    t.recast μ = t.withChildren (List.map (Tree.recast μ)) := by
  cases t with
  | comment core text => rfl
  | directive core statement =>
    exact congrArg (fun m => directive core { statement with standing := m }) (h statement rfl).symm
  | block core statement children =>
    rw [Tree.recast_block, Tree.withChildren]
    exact congrArg (fun m => block core { statement with standing := m } _) (h statement rfl).symm

/-- A node that is listed remembers, and so do those listed inside it. -/
theorem Tree.recast_of_listed {inside : Bool}
    (h : ∀ s ∈ t.statement?, some (s.standing.getD inside) = μ t.id) :
    t.recast μ = (t.withChildren (List.map (Tree.recast μ))).remember inside := by
  cases t with
  | comment core text => rfl
  | directive core statement =>
    exact congrArg (fun m => directive core { statement with standing := m }) (h statement rfl).symm
  | block core statement children =>
    rw [Tree.recast_block, Tree.withChildren]
    exact congrArg (fun m => block core { statement with standing := m } _) (h statement rfl).symm

mutual
/-- When the children of some blocks are listed, those inside a node remember. -/
theorem Tree.list_eq (hw : w.Sound) (blocks : List NodeId) (hμ : w.forest.Remembers μ)
    (he : ∀ t ∈ Forest.nodes w.forest, e t.id = some (w.forest.enabled t)) (t : Tree)
    (ht : t ∈ Forest.nodes w.forest) :
    t.list blocks (w.forest.enabled t) =
      t.withChildren (List.map (Tree.recast (μ.after e (w.forest.childIds blocks)))) := by
  match t with
  | .comment core text => rfl
  | .directive core statement => rfl
  | .block core statement children =>
    have hchild : ∀ u ∈ children, w.forest.enabled u =
        (w.forest.enabled (.block core statement children) &&
          core.policy.isActive statement.name statement.parameters) := fun u hu =>
      hw.enabled_child ht hu
    have hinside := Forest.listInside_eq hw blocks hμ he children
      (fun u hu => Forest.mem_nodes_of_child ht hu) hchild
    rw [Tree.list, hinside, Tree.withChildren]
    congr 1
    split
    · rename_i hblock
      rw [List.contains_eq_mem, decide_eq_true_eq] at hblock
      rw [List.map_map]
      refine List.map_congr_left fun u hu => (Tree.recast_of_listed fun s hs => ?_).symm
      have hunode := Forest.mem_nodes_of_child ht hu
      rw [Memories.after_of_mem ((hw.child_mem_childIds ht hu).2 hblock), ← hμ u hunode s hs,
        he u hunode, hchild u hu]
      cases s.standing <;> rfl
    · rename_i hblock
      rw [List.contains_eq_mem, decide_eq_true_eq] at hblock
      refine List.map_congr_left fun u hu => (Tree.recast_of_standing fun s hs => ?_).symm
      rw [Memories.after_of_not_mem fun hmem => hblock ((hw.child_mem_childIds ht hu).1 hmem)]
      exact hμ u (Forest.mem_nodes_of_child ht hu) s hs

theorem Forest.listInside_eq (hw : w.Sound) (blocks : List NodeId) (hμ : w.forest.Remembers μ)
    {inForce : Bool} (he : ∀ t ∈ Forest.nodes w.forest, e t.id = some (w.forest.enabled t))
    (f : Forest) (hf : ∀ t ∈ f, t ∈ Forest.nodes w.forest)
    (hin : ∀ t ∈ f, w.forest.enabled t = inForce) :
    Forest.listInside blocks inForce f = f.map (Tree.withChildren
      (List.map (Tree.recast (μ.after e (w.forest.childIds blocks))))) := by
  match f with
  | [] => simp [Forest.listInside]
  | t :: f =>
    have hself := Tree.list_eq hw blocks hμ he t (hf t (List.mem_cons_self ..))
    rw [hin t (List.mem_cons_self ..)] at hself
    rw [Forest.listInside, List.map_cons, hself,
      Forest.listInside_eq hw blocks hμ he f (fun u hu => hf u (List.mem_cons_of_mem _ hu))
        fun u hu => hin u (List.mem_cons_of_mem _ hu)]
end

/-- Listing the children of some blocks changes what these remember, and nothing else. -/
theorem Workspace.Sound.list_eq_recast (hw : w.Sound) (blocks : List NodeId)
    (hμ : w.forest.Remembers μ)
    (he : ∀ t ∈ Forest.nodes w.forest, e t.id = some (w.forest.enabled t)) :
    w.forest.list blocks =
      w.forest.map (Tree.recast (μ.after e (w.forest.childIds blocks))) := by
  refine List.map_congr_left fun t ht => ?_
  have htnode := Forest.mem_nodes_of_mem ht
  rw [Tree.list_eq hw blocks hμ he t htnode]
  refine (Tree.recast_of_standing fun s hs => ?_).symm
  rw [Memories.after_of_not_mem (hw.top_not_mem_childIds ht)]
  exact hμ t htnode s hs

/-! ## What does not depend on memories -/

/-- The same blocks can be reached. -/
theorem Tree.blockIds_reached_recast (p : Core → Bool) :
    blockIds ((t.recast μ).reached p) = blockIds (t.reached p) := by
  rw [Tree.recast, Tree.reached_mapStatements, blockIds_map]

theorem Tree.blockIds_dirtyNodes_recast :
    blockIds (t.recast μ).dirtyNodes = blockIds t.dirtyNodes :=
  Tree.blockIds_reached_recast _

theorem Tree.unsavedFiles_recast : (t.recast μ).unsavedFiles = t.unsavedFiles :=
  Tree.unsavedFiles_mapStatements

theorem Tree.map_renderListed_congr {ts ts' : List Tree}
    (h : ts'.map Tree.forget = ts.map Tree.forget) :
    ts'.map Tree.renderListed = ts.map Tree.renderListed := by
  have hforget : ∀ ts : List Tree, ts.map Tree.renderListed =
      (ts.map Tree.forget).map Tree.renderListed := fun ts => by
    rw [List.map_map]
    exact List.map_congr_left fun t _ => (Tree.blockIds_reached_recast (μ := fun _ => none) _).symm
  rw [hforget ts', h, ← hforget ts]

/-- Texts do not depend on memories. -/
theorem Forest.render_recast (f : Forest) {ts ts' : List Tree}
    (h : ts'.map Tree.forget = ts.map Tree.forget) :
    Forest.render (f.map (Tree.recast μ)) ts' = f.render ts := by
  have hall : ∀ before, Forest.renderAll (f.map (Tree.recast μ)) before ts' =
      f.renderAll before ts := by
    induction ts generalizing ts' with
    | nil =>
      obtain rfl := List.map_eq_nil_iff.1 h
      exact fun _ => rfl
    | cons t ts ih =>
      obtain ⟨t', ts', rfl, hforget, hrest⟩ := List.map_eq_cons_iff.1 h
      intro before
      have hdepth : Forest.depth (f.map (Tree.recast μ)) t' = f.depth t := by
        rw [Forest.depth, Tree.core_eq_of_forget_eq hforget, Forest.lineage_recast,
          List.length_map, Forest.depth]
      have htext : ∀ depth before, t'.renderAfter depth before = t.renderAfter depth before := by
        intro depth before
        rw [← Tree.renderAfter_forget, hforget, Tree.renderAfter_forget]
      rw [Forest.renderAll, Forest.renderAll]
      simp only [hdepth, htext, ih hrest]
  exact hall .nothing

namespace Tree

theorem descendants_recast (exclude : Bool) :
    (t.recast μ).descendants exclude = (t.descendants exclude).map (Tree.recast μ) :=
  descendants_mapStatements t fun _ _ => recast_isActive

theorem listed_recast (exclude : Bool) : (t.recast μ).listed exclude = t.listed exclude := by
  rw [listed, descendants_recast, ← List.map_cons, listed]
  exact blockIds_map _

theorem findBlocks_recast (name : String) (exclude : Bool) :
    (t.recast μ).findBlocks name exclude =
      (t.findBlocks name exclude).map (Tree.recast μ) :=
  findBlocks_mapStatements (fun _ _ => rfl) fun _ _ => recast_isActive

theorem findDirectives_recast (name : String) (exclude : Bool) :
    (t.recast μ).findDirectives name exclude =
      (t.findDirectives name exclude).map (Tree.recast μ) :=
  findDirectives_mapStatements (fun _ _ => rfl) fun _ _ => recast_isActive

theorem findComments_recast (text : String) (exact : Bool) :
    (t.recast μ).findComments text exact =
      (t.findComments text exact).map (Tree.recast μ) := by
  have hcomment : Tree.isCommentOf text exact ∘ Tree.recast μ = Tree.isCommentOf text exact :=
    funext fun t => by cases t <;> rfl
  rw [findComments, descendants_recast, List.filter_map, hcomment, findComments]

theorem sameLabel_recast : (t.recast μ).sameLabel (u.recast ν) = t.sameLabel u := by
  simp [sameLabel]

theorem sameSelf_recast {inForce inForce' : Bool} :
    (t.recast μ).sameSelf inForce inForce' (u.recast ν) = t.sameSelf inForce inForce' u := by
  cases t <;> cases u <;> rfl

end Tree

theorem sameChain_recast (as bs : List Tree) :
    sameChain (as.map (Tree.recast μ)) (bs.map (Tree.recast ν)) = sameChain as bs := by
  induction as generalizing bs with
  | nil => cases bs <;> rfl
  | cons a as ih =>
    cases bs with
    | nil => rfl
    | cons b bs => simp [sameChain, Tree.sameLabel_recast, ih]

mutual
/-- Nodes look the same inside, and it takes the same lists to see it. -/
theorem Tree.compare_recast (inForce inForce' : Bool) (t u : Tree) :
    (t.recast μ).compare inForce inForce' (u.recast ν) = t.compare inForce inForce' u := by
  have hself : (t.recast μ).sameSelf inForce inForce' (u.recast ν) =
      t.sameSelf inForce inForce' u := Tree.sameSelf_recast
  match t with
  | .comment core text => exact congrArg (Prod.mk · []) hself
  | .directive core statement => exact congrArg (Prod.mk · []) hself
  | .block core statement children =>
    have hactive : ((Tree.block core statement children).recast μ).isActive =
        (Tree.block core statement children).isActive := Tree.recast_isActive
    have hinside := fun inForce inForce' =>
      Forest.compare_recast inForce inForce' children u.children
    rw [Tree.recast_block] at hself hactive ⊢
    rw [Tree.compare, Tree.compare]
    simp only [hself, hactive, Tree.recast_children, List.length_map, Tree.recast_id,
      Tree.recast_isActive, hinside]

theorem Forest.compare_recast (inForce inForce' : Bool) (f k : Forest) :
    Forest.compare inForce inForce' (f.map (Tree.recast μ)) (k.map (Tree.recast ν)) =
      Forest.compare inForce inForce' f k := by
  match f, k with
  | [], [] => rfl
  | [], u :: k => rfl
  | t :: f, [] => rfl
  | t :: f, u :: k =>
    rw [List.map_cons, List.map_cons, Forest.compare, Forest.compare,
      Tree.compare_recast inForce inForce' t u, Forest.compare_recast inForce inForce' f k]
end

/-- Nodes that are in force alike are equal alike, and it takes the same lists to see it. -/
theorem Forest.compareNodes_recast {μ' : Memories}
    (ht : Forest.enabled (f.map (Tree.recast μ)) (t.recast μ') = f.enabled t)
    (hu : Forest.enabled (f.map (Tree.recast μ)) (u.recast ν) = f.enabled u) :
    Forest.compareNodes (f.map (Tree.recast μ)) (t.recast μ') (u.recast ν) =
      f.compareNodes t u := by
  rw [Forest.compareNodes, ht, hu, Tree.compare_recast, Forest.compareNodes]
  simp only [Tree.recast_id, Tree.recast_core, Forest.lineage_recast, sameChain_recast]

/-! ## Operations -/

/-- The numbers of a new node and of those inside it are new. -/
theorem Blueprint.le_of_make {b : Blueprint} {kin : Kinship} {id next : NodeId}
    {content : NodeContent} {standing : Bool} (h : b.make kin id content standing = .ok (t, next)) :
    ∀ u ∈ t.nodes, id ≤ u.id := by
  obtain ⟨rfl, hchildren⟩ := Blueprint.make_cases h
  intro u hu
  rw [Tree.nodes_eq] at hu
  rcases List.mem_cons.1 hu with rfl | hu
  · exact Nat.le_refl _
  · rcases hchildren with hnil | ⟨-, hparsed⟩
    · simp [hnil] at hu
    · rw [hparsed] at hu
      obtain ⟨n, -, hids⟩ :=
        Forest.ids_ofFragments kin t.id (t.id + 1) t.core.origin.fragment.children
      have hid : u.id ∈ List.range' (t.id + 1) n := hids ▸ List.mem_map_of_mem hu
      exact Nat.le_of_succ_le (List.mem_range'_1.1 hid).1

namespace Workspace

/-- A workspace with other memories. -/
def recast (μ : Memories) (w : Workspace) : Workspace := w.mapStatements (Statement.recast μ)

@[simp]
theorem recast_forest : (w.recast μ).forest = w.forest.map (Tree.recast μ) := rfl

theorem recast_congr (h : ∀ t ∈ Forest.nodes w.forest, ∀ _ ∈ t.statement?, μ t.id = ν t.id) :
    w.recast μ = w.recast ν :=
  congrArg (fun f => Workspace.mk f w.next w.journal) (Forest.map_recast_congr h)

theorem recast_of_remembers (h : w.forest.Remembers μ) : w.recast μ = w :=
  congrArg (fun f => Workspace.mk f w.next w.journal) h.recast_eq

/-- A new node is made alike, if it is told nothing new. -/
theorem construct_recast {b : Blueprint} {content : NodeContent} {standing : Bool}
    (hnew : ∀ t w', w.construct b content standing = .ok (t, w') → t.recast μ = t) :
    (w.recast μ).construct b content standing =
      (w.construct b content standing).map (Prod.map id (recast μ)) := by
  have hkin : (w.recast μ).kinship b = w.kinship b := kinship_mapStatements b
  rw [construct_eq] at hnew
  rw [construct_eq, construct_eq, hkin]
  change (b.make (w.kinship b) w.next content standing).map _ = _
  cases hmake : b.make (w.kinship b) w.next content standing with
  | error x => rfl
  | ok made =>
    obtain ⟨t, next⟩ := made
    have hforest : (w.forest.adopt b.dirty t).map (Tree.recast μ) =
        Forest.adopt (w.forest.map (Tree.recast μ)) b.dirty (t.recast μ) :=
      Forest.adopt_map Statement.ignoresFlags_recast w.forest b.dirty t
    rw [hmake] at hnew
    rw [hnew t _ rfl] at hforest
    exact congrArg (fun f => Except.ok (t, Workspace.mk f next w.journal)) hforest.symm

/-- A node is added alike to a block, if the node is told nothing new and what is inside the block
is in force alike. -/
theorem addChild_recast {b : Tree} {content : NodeContent} {position : Option Nat}
    (hinside : (w.recast μ).enabledInside (b.recast ν) = w.enabledInside b)
    (hnew : ∀ t w', w.addChild b content position = .ok (t, w') → t.recast μ = t) :
    (w.recast μ).addChild (b.recast ν) content position =
      (w.addChild b content position).map (Prod.map id (recast μ)) := by
  have hplace : (b.recast ν).placeFor content position = b.placeFor content position :=
    Tree.placeFor_mapStatements b content position
  have hchild : (w.recast μ).childCore (b.recast ν) = w.childCore b := by
    simp [Workspace.childCore, recast, mapStatements]
  rw [addChild_eq] at hnew
  rw [addChild_eq, addChild_eq, hplace, hchild, hinside]
  cases hindex : b.placeFor content position with
  | error x => rfl
  | ok index =>
    rw [hindex] at hnew
    have hnew := hnew _ _ rfl
    generalize content.tree (w.childCore b) (w.enabledInside b) [] = new at hnew
    have hforest : (w.forest.graft b index new).map (Tree.recast μ) =
        Forest.graft (w.forest.map (Tree.recast μ)) (b.recast ν) index (new.recast μ) := by
      have hmap := Forest.graft_map (Statement.ignoresFlags_recast (μ := μ)) w.forest b index new
      simp only [Forest.graft, Tree.recast_id, Tree.recast_core, Tree.mapStatements_id,
        Tree.mapStatements_core] at hmap ⊢
      exact hmap
    rw [hnew] at hforest
    exact congrArg (fun f => Except.ok (new, Workspace.mk f (w.next + 1) w.journal)) hforest.symm

/-- A node is added alike to a block as it was before nodes were listed. -/
theorem addChild_congr {b b' : Tree} {content : NodeContent} {position : Option Nat}
    (hforget : b.forget = b'.forget) (henabled : w.forest.enabled b = w.forest.enabled b') :
    w.addChild b content position = w.addChild b' content position := by
  have hcore : b.core = b'.core := Tree.core_eq_of_forget_eq hforget
  have hactive : ∀ t : Tree, t.forget.isActive = t.isActive := fun t => by cases t <;> rfl
  have hlength : ∀ t : Tree, t.forget.children.length = t.children.length := fun t => by
    rw [Tree.forget_children, List.length_map]
  have hplace : b.placeFor content position = b'.placeFor content position := by
    rw [Tree.placeFor, ← hlength b, hforget, hlength b', Tree.placeFor]
  have hinside : w.enabledInside b = w.enabledInside b' := by
    rw [enabledInside, henabled, ← hactive b, hforget, hactive b', enabledInside]
  have hchild : w.childCore b = w.childCore b' := by
    rw [childCore, Tree.id, hcore, childCore, Tree.id]
  rw [addChild_eq, addChild_eq, hplace, hinside, hchild]
  simp only [Forest.graft, Tree.id, hcore]

theorem setParameters_recast (t : Tree) (parameters : List String) :
    (w.recast μ).setParameters (t.recast ν) parameters =
      (w.setParameters t parameters).map (recast μ) := by
  rw [setParameters, Tree.recast_name, setParameters]
  split
  · rfl
  · have hset : ((w.recast μ).forest.mapStatements fun core s =>
        if core.id == t.id then { s with parameters } else s) =
        (w.forest.mapStatements fun core s =>
          if core.id == t.id then { s with parameters } else s).map (Tree.recast μ) := by
      rw [Forest.mapStatements_eq_map, Forest.mapStatements_eq_map]
      refine (Forest.map_map_mapStatements w.forest).trans
        (Eq.trans ?_ (Forest.map_map_mapStatements w.forest).symm)
      congr 2
      funext core s
      split <;> rfl
    simp only [Tree.recast_id, Tree.recast_core]
    refine congrArg (fun f => Except.ok (Workspace.mk f w.next w.journal)) ?_
    rw [hset]
    exact (Forest.markModified_map Statement.ignoresFlags_recast _ _).symm

theorem save_recast (t : Tree) (message : String) :
    (w.recast μ).save (t.recast ν) message =
      ((w.save t message).1, (w.save t message).2.recast μ) := by
  rw [save, Tree.recast_core, Tree.unsavedFiles_recast, save]
  split <;> rfl

end Workspace

/-! ## Writers -/

/-- The writer does not look at what nodes remember. -/
def Writer.IgnoresMemories {m : Type → Type} (writer : Writer m) : Prop :=
  ∀ (μ : Memories) (path : Path) (f : Forest) (nodes : List Tree),
    writer.write path (f.map (Tree.recast μ)) (nodes.map (Tree.recast μ)) =
      writer.write path f nodes

/-- A writer that only takes texts sees nothing of what nodes remember. -/
theorem Writer.ignoresMemories_ofText {m : Type → Type} [Monad m]
    (put : Path → String → m (Except Error Unit)) : (ofText put).IgnoresMemories := by
  intro μ path f nodes
  have hforget : (nodes.map (Tree.recast μ)).map Tree.forget = nodes.map Tree.forget := by
    rw [List.map_map]
    exact List.map_congr_left fun _ _ => Tree.recast_forget
  -- neither the text nor the blocks listed for it depend on memories
  simp only [ofText]
  rw [Forest.render_recast f hforget, Tree.map_renderListed_congr hforget]

/-- Files are handed over alike, and it takes the same lists to do it. -/
theorem Workspace.writeFiles_recast {m : Type → Type} [Monad m] {writer : Writer m}
    (hwriter : writer.IgnoresMemories) (f : Forest) (root : Tree) (files : List Path) :
    writeFiles writer (f.map (Tree.recast μ)) (root.recast μ) files =
      writeFiles writer f root files := by
  induction files with
  | nil => rfl
  | cons path files ih =>
    have hroots : (root.recast μ).fileRoots path =
        (root.fileRoots path).map (Tree.recast μ) := Tree.fileRoots_mapStatements root
    have hfound : (root.recast μ).fileRootsListed path = root.fileRootsListed path :=
      Tree.blockIds_reached_recast _
    rw [writeFiles, writeFiles, hroots, hfound, hwriter]
    simp only [ih]

end HttpdConf
