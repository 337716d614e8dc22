import HttpdConf.Command.Run
import HttpdConf.Proofs.ParameterEdits
import HttpdConf.Proofs.Searches
import HttpdConf.Proofs.Statements

/-!
# New parameters for what a search finds

Searching goes by what a document says and by the policy, so it can be done on shapes. Directives
have no condition: when those that a search found get new parameters, the same search finds the same
directives again. Setting the parameters of several directives, one after the other, is one change
of the tree, in which only those that had other parameters are marked.

## Main definitions

* `Shape.descendants`, `Shape.scope?`: searches on what a tree says
* `Tree.assign`: a tree in which the nodes of some numbers have given parameters

## Main results

* `Tree.shape_scope?`, `Tree.shape_findDirectives`: searches depend on shapes and the policy
* `Tree.scope?_assign`, `Tree.findDirectives_assign`: searches after directives got new parameters
* `exists_foldlM_setParameters`: setting the parameters of several directives
-/

namespace HttpdConf

/-! ## Searches on shapes -/

namespace Shape

/-- Whether blocks that say so are active. -/
def isActive (p : Policy) : Shape → Bool
  | block name arguments _ => p.isActive name arguments
  | _ => true

mutual
/-- What is said below a block, in document order. -/
def descendants (p : Policy) (exclude : Bool) : Shape → List Shape
  | block _ _ children => walk p exclude children
  | comment _ => []
  | directive _ _ => []

def walk (p : Policy) (exclude : Bool) : List Shape → List Shape
  | [] => []
  | s :: rest =>
    if exclude && !s.isActive p then walk p exclude rest
    else s :: (s.descendants p exclude ++ walk p exclude rest)
end

/-- Whether it is a block of a name. -/
def isBlockOf (name : String) : Shape → Bool
  | block own _ _ => Text.sameName own name
  | _ => false

/-- Whether it is a directive of a name. -/
def isDirectiveOf (name : String) : Shape → Bool
  | directive own _ => Text.sameName own name
  | _ => false

/-- The parameters of a directive or block. -/
def parameters : Shape → List String
  | comment _ => []
  | directive _ arguments => arguments
  | block _ arguments _ => arguments

/-- What the first active block of a name says, or the whole file. -/
def scope? (p : Policy) (s : Shape) : Option String → Option Shape
  | none => some s
  | some name => ((s.descendants p true).filter (isBlockOf name)).head?

end Shape

variable {t u r : Tree} {p : Policy} {exclude : Bool} {name : String} {ids : List NodeId}
  {parameters : List String}

/-- All nodes of the tree are under the policy. -/
def Tree.IsUnder (p : Policy) (t : Tree) : Prop := ∀ u ∈ t.nodes, u.core.policy = p

theorem Tree.IsUnder.of_mem (h : t.IsUnder p) (hu : u ∈ t.nodes) : u.IsUnder p := fun v hv =>
  h v ((Tree.nodes_sublist t hu).subset hv)

/-- A document that is opened is under the policy it is opened with. -/
theorem Workspace.isUnder_opened (w : Workspace) (document : Fragment) (p : Policy) :
    (w.opened document p).1.IsUnder p := by
  intro u hu
  rw [opened, Tree.nodes] at hu
  rcases List.mem_cons.1 hu with rfl | hu
  · rfl
  · obtain ⟨a, id, fragment, hcore, -⟩ := Forest.core_ofFragments ⟨p, w.next⟩ w.next (w.next + 1)
      document.children (Nat.lt_succ_self _) u hu
    rw [hcore]
    rfl

theorem Tree.shape_isActive (h : t.core.policy = p) : t.shape.isActive p = t.isActive := by
  subst h
  cases t <;> rfl

theorem Tree.shape_parameters (t : Tree) : t.shape.parameters = t.parameters := by
  cases t <;> rfl

theorem Tree.shape_isBlockOf (t : Tree) :
    t.shape.isBlockOf name = (t.isBlock && Text.sameName t.name name) := by
  cases t <;> rfl

theorem Tree.shape_isDirectiveOf (t : Tree) :
    t.shape.isDirectiveOf name = (t.isDirective && Text.sameName t.name name) := by
  cases t <;> rfl

mutual
/-- A walk meets what the shape of the tree says. -/
theorem Tree.shape_descendants {p : Policy} (exclude : Bool) (t : Tree) (h : t.IsUnder p) :
    t.shape.descendants p exclude = (t.descendants exclude).map Tree.shape := by
  match t with
  | .comment core text => rw [Tree.shape, Shape.descendants, Tree.descendants, List.map_nil]
  | .directive core statement =>
    rw [Tree.shape, Shape.descendants, Tree.descendants, List.map_nil]
  | .block core statement children =>
    rw [Tree.shape, Shape.descendants, Tree.descendants, Forest.shapes_walk exclude children
      fun u hu => h u (Tree.mem_nodes_of_mem_children hu)]

theorem Forest.shapes_walk {p : Policy} (exclude : Bool) (f : Forest)
    (h : ∀ u ∈ Forest.nodes f, u.core.policy = p) :
    Shape.walk p exclude (Forest.shapes f) = (Forest.walk exclude f).map Tree.shape := by
  match f with
  | [] => rfl
  | t :: f =>
    rw [Forest.shapes, Shape.walk, Forest.walk,
      Tree.shape_isActive (h t (by simp [t.self_mem_nodes])),
      Tree.shape_descendants exclude t fun u hu => h u (by simp [hu]),
      Forest.shapes_walk exclude f fun u hu => h u (by simp [hu])]
    split
    · rfl
    · rw [List.map_cons, List.map_append]
end

theorem Tree.shape_findDirectives (h : t.IsUnder p) :
    (t.shape.descendants p exclude).filter (Shape.isDirectiveOf name) =
      (t.findDirectives name exclude).map Tree.shape := by
  rw [Tree.shape_descendants exclude t h, List.filter_map, Tree.findDirectives]
  congr 2
  exact funext Tree.shape_isDirectiveOf

/-- The block that is worked in depends on what the tree says. -/
theorem Tree.shape_scope? (h : t.IsUnder p) (block : Option String) :
    t.shape.scope? p block = (t.scope? block).map Tree.shape := by
  cases block with
  | none => rfl
  | some name =>
    rw [Shape.scope?, Tree.shape_descendants true t h, List.filter_map, List.head?_map,
      Tree.scope?, Tree.findBlocks]
    congr 3
    exact funext Tree.shape_isBlockOf

/-! ## Assignments -/

/-- The tree with given parameters for the nodes of some numbers. -/
def Tree.assign (ids : List NodeId) (parameters : List String) (t : Tree) : Tree :=
  t.mapStatements fun core s => if ids.contains core.id then { s with parameters } else s

theorem Tree.assign_name : (t.assign ids parameters).name = t.name :=
  Tree.mapStatements_name fun _ s => by split <;> rfl

@[simp]
theorem Tree.assign_core : (t.assign ids parameters).core = t.core := Tree.mapStatements_core

@[simp]
theorem Tree.assign_id : (t.assign ids parameters).id = t.id := Tree.mapStatements_id

theorem Tree.nodes_assign :
    (t.assign ids parameters).nodes = t.nodes.map (Tree.assign ids parameters) :=
  Tree.nodes_mapStatements t

theorem Tree.parameters_assign (ht : t.statement?.isSome = true) (hid : t.id ∈ ids) :
    (t.assign ids parameters).parameters = parameters := by
  cases t with
  | comment core text => simp [Tree.statement?] at ht
  | directive core statement =>
    have hmem : ids.contains core.id = true := List.contains_iff_mem.2 hid
    rw [Tree.assign, Tree.mapStatements, hmem]
    rfl
  | block core statement children =>
    have hmem : ids.contains core.id = true := List.contains_iff_mem.2 hid
    rw [Tree.assign, Tree.mapStatements, hmem]
    rfl

/-- Nothing changes where the parameters were the given ones. -/
theorem Tree.assign_eq_self (h : ∀ u ∈ t.nodes, u.id ∈ ids → u.parameters = parameters) :
    t.assign ids parameters = t := by
  have hself : t.mapStatements (fun _ s => s) = t := Tree.mapStatements_self t
  rw [Tree.assign]
  nth_rewrite 2 [← hself]
  refine Tree.mapStatements_congr t fun u hu s hs => ?_
  split
  · rename_i hid
    have hparameters := h u hu (List.contains_iff_mem.1 hid)
    rw [Tree.parameters, hs, Option.map_some, Option.getD_some] at hparameters
    rw [← hparameters]
  · rfl

theorem Tree.isActive_assign (h : t.isBlock = true → t.id ∉ ids) :
    (t.assign ids parameters).isActive = t.isActive := by
  cases t with
  | block core statement children =>
    have hid : ids.contains core.id = false := by
      rw [Bool.eq_false_iff, Ne, List.contains_iff_mem]
      exact h rfl
    rw [Tree.assign, Tree.mapStatements, hid]
    rfl
  | _ => rfl

section

variable (hblocks : ∀ u ∈ t.nodes, u.isBlock = true → u.id ∉ ids)
include hblocks

/-- When directives get new parameters, the same block is worked in. -/
theorem Tree.scope?_assign (block : Option String) :
    (t.assign ids parameters).scope? block = (t.scope? block).map (Tree.assign ids parameters) := by
  cases block with
  | none => rfl
  | some name =>
    rw [Tree.scope?, Tree.assign, Tree.findBlocks_mapStatements (fun _ s => by split <;> rfl)
      fun u hu => Tree.isActive_assign (hblocks u hu), List.head?_map, Tree.scope?]
    rfl

/-- When directives get new parameters, the same directives are found. -/
theorem Tree.findDirectives_assign :
    (t.assign ids parameters).findDirectives name exclude =
      (t.findDirectives name exclude).map (Tree.assign ids parameters) :=
  Tree.findDirectives_mapStatements (fun _ s => by split <;> rfl)
    fun u hu => Tree.isActive_assign (hblocks u hu)

end

theorem Tree.mem_nodes_of_scope? {scope : Tree} {block : Option String}
    (h : t.scope? block = some scope) : scope ∈ t.nodes := by
  cases block with
  | none =>
    rw [← Option.some.inj h]
    exact t.self_mem_nodes
  | some name =>
    have hfound := List.mem_of_head? h
    exact Tree.mem_nodes_of_mem_children
      ((t.descendants_sublist true).subset (List.mem_filter.1 hfound).1)

theorem Tree.mem_nodes_of_findDirectives (hu : u ∈ t.findDirectives name exclude) :
    u ∈ t.nodes ∧ u.isDirective = true ∧ Text.sameName u.name name = true := by
  obtain ⟨hmem, hfound⟩ := List.mem_filter.1 hu
  obtain ⟨hdirective, hname⟩ := Bool.and_eq_true_iff.1 hfound
  exact ⟨Tree.mem_nodes_of_mem_children ((t.descendants_sublist exclude).subset hmem), hdirective,
    hname⟩

/-- Where what a search found has got parameters, a tree that says the same has a block to work in,
in which the search finds only directives with these parameters. -/
theorem Tree.exists_scope_of_shape_eq {r' scope : Tree} {block : Option String}
    (hr : r.IsUnder p) (hr' : r'.IsUnder p) (hnodup : (r.nodes.map Tree.id).Nodup)
    (hscope : r.scope? block = some scope)
    (hshape : r'.shape =
      (r.assign ((scope.findDirectives name true).map Tree.id) parameters).shape) :
    ∃ scope', r'.scope? block = some scope' ∧
      (scope'.findDirectives name true).length = (scope.findDirectives name true).length ∧
      ∀ d ∈ scope'.findDirectives name true, d.parameters = parameters := by
  have hmem := Tree.mem_nodes_of_scope? hscope
  set ids := (scope.findDirectives name true).map Tree.id with hids
  -- what was found are directives, and no block has the number of a directive
  have hblocks : ∀ u ∈ r.nodes, u.isBlock = true → u.id ∉ ids := by
    intro u hu hblock hid
    obtain ⟨d, hd, hdid⟩ := List.mem_map.1 hid
    obtain ⟨hdmem, hdirective, -⟩ := Tree.mem_nodes_of_findDirectives hd
    obtain rfl := List.inj_on_of_nodup_map hnodup ((Tree.nodes_sublist r hmem).subset hdmem) hu hdid
    cases d <;> simp_all [Tree.isBlock, Tree.isDirective]
  have hassigned : (r.assign ids parameters).IsUnder p := by
    intro u hu
    rw [Tree.nodes_assign] at hu
    obtain ⟨v, hv, rfl⟩ := List.mem_map.1 hu
    rw [Tree.assign_core]
    exact hr v hv
  have hsame : (r'.scope? block).map Tree.shape =
      some (scope.assign ids parameters).shape := by
    rw [← Tree.shape_scope? hr', hshape, Tree.shape_scope? hassigned,
      Tree.scope?_assign hblocks, hscope]
    rfl
  obtain ⟨scope', hscope', hshape'⟩ := Option.map_eq_some_iff.1 hsame
  have hmem' := Tree.mem_nodes_of_scope? hscope'
  have hscopeBlocks : ∀ u ∈ scope.nodes, u.isBlock = true → u.id ∉ ids := fun u hu =>
    hblocks u ((Tree.nodes_sublist r hmem).subset hu)
  have hscopeUnder : (scope.assign ids parameters).IsUnder p := by
    refine hassigned.of_mem ?_
    rw [Tree.nodes_assign]
    exact List.mem_map_of_mem hmem
  -- the search finds what it found before, with the new parameters
  have hfound : (scope'.findDirectives name true).map Tree.shape =
      (scope.findDirectives name true).map fun d => (d.assign ids parameters).shape := by
    rw [← Tree.shape_findDirectives (hr'.of_mem hmem'), hshape',
      Tree.shape_findDirectives hscopeUnder, Tree.findDirectives_assign hscopeBlocks, List.map_map]
    rfl
  refine ⟨scope', hscope', ?_, fun d hd => ?_⟩
  · simpa using congrArg List.length hfound
  · have hdshape : d.shape ∈ (scope'.findDirectives name true).map Tree.shape :=
      List.mem_map_of_mem hd
    rw [hfound] at hdshape
    obtain ⟨e, he, heq⟩ := List.mem_map.1 hdshape
    have hstatement : e.statement?.isSome = true := by
      obtain ⟨-, hdirective, -⟩ := Tree.mem_nodes_of_findDirectives he
      cases e <;> simp_all [Tree.isDirective, Tree.statement?]
    rw [← Tree.shape_parameters, ← heq, Tree.shape_parameters,
      Tree.parameters_assign hstatement (List.mem_map_of_mem he)]

/-- One assignment after another of the same parameters is one assignment. -/
theorem Tree.assign_assign (ids ids' : List NodeId) :
    (t.assign ids parameters).assign ids' parameters = t.assign (ids ++ ids') parameters := by
  rw [Tree.assign, Tree.assign, Tree.mapStatements_mapStatements, Tree.assign]
  refine Tree.mapStatements_congr t fun u _ s _ => ?_
  simp only [List.contains_eq_mem, List.mem_append]
  split <;> split <;> simp_all

/-! ## Setting parameters one after the other -/

mutual
/-- Recording a change only sets flags. -/
theorem Tree.settled_touch_self (id : NodeId) (t : Tree) :
    (t.touch id fun u => u).settled = t.settled := by
  match t with
  | .comment core text =>
    rw [Tree.touch]
    split <;> rfl
  | .directive core statement =>
    rw [Tree.touch]
    split <;> rfl
  | .block core statement children =>
    rw [Tree.touch]
    split
    · simp only [Tree.mapCore, Tree.settled_block]
      rfl
    · split
      · rw [Tree.settled_block, Tree.settled_block, Forest.settled_touch_self id children]
        rfl
      · rfl

theorem Forest.settled_touch_self (id : NodeId) (f : Forest) :
    (Forest.touch id (fun u => u) f).map Tree.settled = f.map Tree.settled := by
  match f with
  | [] => rw [Forest.touch]
  | t :: f =>
    rw [Forest.touch, List.map_cons, List.map_cons, Tree.settled_touch_self id t,
      Forest.settled_touch_self id f]
end

/-- Apart from flags, new parameters of a node are all that changes. -/
theorem Tree.settled_touch (hnodup : (t.nodes.map Tree.id).Nodup) (id : NodeId) :
    (t.touch id (Tree.mapStatement ({ · with parameters }))).settled =
      t.settled.assign [id] parameters := by
  rw [← Tree.touch_update t fun u _ hu => by rw [Tree.id, Tree.mapStatement_core, ← hu, Tree.id],
    Tree.settled_touch_self, ← Tree.mapStatements_eq_update id _ t hnodup, Tree.settled,
    ← Tree.mapStatements_mapCores (k := Core.clean) (fun core => rfl) t, Tree.assign, Tree.settled]
  refine Tree.mapStatements_congr _ fun u _ s _ => ?_
  simp

theorem Tree.bare_name (t : Tree) : t.bare.name = t.name := by
  rw [Tree.bare, Tree.forget_name]
  cases t <;> rfl

theorem Tree.nodes_bare (t : Tree) : t.bare.nodes = t.nodes.map Tree.bare := by
  simpa using Forest.nodes_bare [t]

namespace Workspace

/-- Setting parameters goes by the name, the number and the link of the node. -/
theorem setParameters_congr (w : Workspace) (hid : t.id = u.id) (hname : t.name = u.name)
    (hancestor : t.core.ancestor = u.core.ancestor) :
    w.setParameters t parameters = w.setParameters u parameters := by
  have hid' : t.core.id = u.core.id := hid
  have hmark : ∀ f : Forest, f.markModified t.core = f.markModified u.core := fun f => by
    rw [Forest.markModified_eq, Forest.markModified_eq, Forest.lineage, Forest.lineage, hid',
      hancestor]
  simp only [Workspace.setParameters, hname, hid, hmark]

namespace Tended

variable {w : Workspace}

/-- A node that is known from before is still there, with the same name and link. -/
def Knows (r d : Tree) : Prop :=
  ∃ u ∈ r.nodes, u.id = d.id ∧ u.name = d.name ∧ u.core.ancestor = d.core.ancestor

/-- Setting the parameters of a node that is known from before. -/
theorem exists_setParameters (hw : w.Tended r) {d : Tree} (hd : Knows r d) (hname : d.name ≠ "")
    (parameters : List String) :
    ∃ w' r', w.setParameters d parameters = .ok w' ∧ w'.Tended r' ∧
      Sheet.edit ⟨r.forget, w.next⟩ (.setParameters d.id parameters) =
        some ⟨r'.forget, w'.next⟩ ∧
      r'.bare = r.bare.assign [d.id] parameters := by
  obtain ⟨u, hu, hid, huname, hancestor⟩ := hd
  have hnode : w.node? 0 d.id = some u := by
    rw [hw.node?_eq, ← hid]
    exact Tree.find?_id_eq (hw.tidy.nodup_nodes (Forest.mem_nodes_of_mem hw.mem)) hu
  -- the call is an edit of the document, which the sheet follows
  have hrel := Sheet.Follows.edit (s := ⟨r.forget, w.next⟩) ⟨r, hw, rfl⟩
    (.setParameters d.id parameters)
  rw [Workspace.edit, hnode] at hrel
  simp only [Workspace.setParameters_congr w hid huname hancestor] at hrel
  obtain ⟨w', hset⟩ : ∃ w', w.setParameters d parameters = .ok w' := by
    unfold Workspace.setParameters
    rw [if_neg (by simpa using hname)]
    exact ⟨_, rfl⟩
  rw [hset] at hrel
  cases hedit : Sheet.edit ⟨r.forget, w.next⟩ (.setParameters d.id parameters) with
  | none =>
    rw [hedit] at hrel
    cases hrel
  | some s' =>
    rw [hedit] at hrel
    cases hrel with
    | some hfollows =>
      obtain ⟨r', hw', rfl⟩ := hfollows
      refine ⟨w', r', hset, hw', rfl, ?_⟩
      obtain ⟨_, h, -⟩ | ⟨_, _, _, _, h, -⟩ | ⟨_, _, _, h, -⟩ | ⟨node, ps, t, h, -, -, htree⟩ :=
        Sheet.edit_cases hedit
      · simp at h
      · simp at h
      · simp at h
      · obtain ⟨rfl, rfl⟩ : d.id = node ∧ parameters = ps := by simpa using h
        have htouch : r'.forget = r.forget.touch d.id (Tree.mapStatement ({ · with parameters })) :=
          congrArg Sheet.tree htree
        have hnodup : (r.forget.nodes.map Tree.id).Nodup := by
          rw [Tree.nodes_forget, List.map_map]
          have hids : Tree.id ∘ Tree.forget = Tree.id := funext fun t => Tree.forget_id
          rw [hids]
          exact hw.tidy.nodup_nodes (Forest.mem_nodes_of_mem hw.mem)
        have hbare : ∀ t : Tree, t.bare = t.forget.settled := Tree.forget_settled
        rw [hbare, htouch, Tree.settled_touch hnodup, ← hbare]

/-- A node that is known from before is still known after an assignment. -/
theorem Knows.of_assign {r' d : Tree} (h : Knows r d)
    (hbare : r'.bare = r.bare.assign ids parameters) :
    Knows r' d := by
  obtain ⟨u, hu, hid, hname, hancestor⟩ := h
  have hmem : u.bare.assign ids parameters ∈ r'.nodes.map Tree.bare := by
    rw [← Tree.nodes_bare, hbare, Tree.nodes_assign, Tree.nodes_bare]
    exact List.mem_map_of_mem (List.mem_map_of_mem hu)
  obtain ⟨u', hu', heq⟩ := List.mem_map.1 hmem
  refine ⟨u', hu', ?_, ?_, ?_⟩
  · rw [← hid, ← u'.bare_id, heq, Tree.assign_id, Tree.bare_id]
  · rw [← hname, ← u'.bare_name, heq, Tree.assign_name, Tree.bare_name]
  · have hclean : u'.core.clean = u.core.clean := by
      rw [← u'.bare_core, heq, Tree.assign_core, Tree.bare_core]
    rw [← hancestor]
    exact congrArg (fun core => core.ancestor) (show u'.core.clean = u.core.clean from hclean)

/-- Setting the parameters of several nodes is one change of the tree. -/
theorem exists_foldlM_setParameters (hw : w.Tended r) (ds : List Tree)
    (hds : ∀ d ∈ ds, Knows r d ∧ d.name ≠ "") (parameters : List String) :
    ∃ w' r', ds.foldlM (fun w d => w.setParameters d parameters) w = .ok w' ∧ w'.Tended r' ∧
      (ds.map fun d => Edit.setParameters d.id parameters).foldlM Sheet.edit ⟨r.forget, w.next⟩ =
        some ⟨r'.forget, w'.next⟩ ∧
      r'.bare = r.bare.assign (ds.map Tree.id) parameters := by
  induction ds generalizing w r with
  | nil =>
    refine ⟨w, r, rfl, hw, rfl, ?_⟩
    rw [Tree.assign_eq_self]
    simp
  | cons d ds ih =>
    obtain ⟨hd, hname⟩ := hds d (by simp)
    obtain ⟨w₁, r₁, hset, hw₁, hedit, hbare⟩ := hw.exists_setParameters hd hname parameters
    obtain ⟨w', r', hfold, hw', hrun, hbare'⟩ := ih hw₁ fun e he =>
      ⟨(hds e (by simp [he])).1.of_assign hbare, (hds e (by simp [he])).2⟩
    refine ⟨w', r', ?_, hw', ?_, ?_⟩
    · rw [List.foldlM_cons, hset]
      exact hfold
    · rw [List.map_cons, List.foldlM_cons, hedit]
      exact hrun
    · rw [hbare', hbare, Tree.assign_assign]
      rfl

end Tended

/-- Where a search finds directives, setting their parameters leaves out those that have them. -/
theorem setDirective_eq (w : Workspace) {scope : Tree}
    (hfound : scope.findDirectives name true ≠ []) :
    w.setDirective scope name parameters =
      ((scope.findDirectives name true).filter (·.parameters != parameters)).foldlM
        (fun w d => w.setParameters d parameters) w := by
  unfold Workspace.setDirective
  cases hds : scope.findDirectives name true with
  | nil => exact absurd hds hfound
  | cons d ds =>
    rw [← hds]
    simp only
    clear hds hfound
    induction scope.findDirectives name true generalizing w with
    | nil => rfl
    | cons e es ih =>
      rw [List.foldlM_cons, List.filter_cons]
      by_cases heq : e.parameters = parameters
      · simp only [heq, beq_self_eq_true, if_true, bne_self_eq_false, Bool.false_eq_true, if_false]
        exact ih w
      · have hne : (e.parameters == parameters) = false := beq_false_of_ne heq
        simp only [hne, bne, Bool.false_eq_true, if_false, Bool.not_false, if_true,
          List.foldlM_cons]
        cases w.setParameters e parameters with
        | error e => rfl
        | ok w₁ => exact ih w₁

end Workspace

end HttpdConf
