import HttpdConf.Fragment.Reader
import HttpdConf.Proofs.Nodes
import HttpdConf.Workspace
import Mathlib.Data.List.InsertIdx

/-!
# Edits of an open document

All edits of a workspace come down to one change of one tree: the node that is edited becomes
another one, it is marked as modified, and the blocks around it are marked as dirty. What a node
remembers of being looked at plays no part in that. So a run of edits in a workspace is followed
by a sheet, which is the tree of the document alone.

## Main definitions

* `Edit`, `Workspace.edit`: a call that edits a node of a document, or looks at nodes
* `Tree.touch`: change a node and record the change
* `Tree.forget`: a tree without what its nodes remember
* `Sheet`, `Sheet.edit`: the tree of a document, and the effect of edits on it
* `Workspace.Tended`: a workspace with an open document
* `Workspace.opened`: the root of a document that is opened, and the workspace with it
* `editFile`: the root block of a file after some edits

## Main results

* `Sheet.Follows.edit`, `Sheet.Follows.run`: edits of a document are edits of its sheet
* `exists_sheet_of_editFile`: a file that was edited is followed by its sheet
-/

namespace HttpdConf

/-- A call that edits a node of a document, or only looks at the children of some blocks. -/
inductive Edit where
  | add (block : NodeId) (content : NodeContent) (position : Option Nat)
  | delete (block child : NodeId)
  | setParameters (node : NodeId) (parameters : List String)
  | look (blocks : List NodeId)

/-! ## Changes of one node -/

/-- Change what the node at the top has. -/
def Tree.mapCore (g : Core → Core) : Tree → Tree
  | .comment core text => .comment (g core) text
  | .directive core statement => .directive (g core) statement
  | .block core statement children => .block (g core) statement children

/-- Change the statement of the node at the top. -/
def Tree.mapStatement (g : Statement → Statement) : Tree → Tree
  | .comment core text => .comment core text
  | .directive core statement => .directive core (g statement)
  | .block core statement children => .block core (g statement) children

/-- The node has a change of its own. -/
def Core.touched (core : Core) : Core := { core with dirty := true, modified := true }

/-- A node inside has a change. -/
def Core.stirred (core : Core) : Core := { core with dirty := true }

mutual
/-- Change the node with a number and record it: the node is modified, and it and the blocks around
it are dirty. -/
def Tree.touch (id : NodeId) (g : Tree → Tree) : Tree → Tree
  | .block core statement children =>
    if core.id == id then (g (.block core statement children)).mapCore Core.touched
    else if (Forest.nodes children).any (·.id == id) then
      .block core.stirred statement (Forest.touch id g children)
    else .block core statement children
  | .comment core text =>
    if core.id == id then (g (.comment core text)).mapCore Core.touched else .comment core text
  | .directive core statement =>
    if core.id == id then (g (.directive core statement)).mapCore Core.touched
    else .directive core statement

def Forest.touch (id : NodeId) (g : Tree → Tree) : Forest → Forest
  | [] => []
  | t :: rest => t.touch id g :: Forest.touch id g rest
end

/-- A tree without what its nodes remember of being listed. -/
def Tree.forget (t : Tree) : Tree := t.mapStatements fun _ s => { s with standing := none }

/-! ## Sheets -/

/-- The tree of a document, and the next free number. -/
structure Sheet where
  tree : Tree
  next : NodeId

/-- What a node added to a block has. -/
def Core.child (core : Core) (next : NodeId) : Core where
  id := next
  ancestor := some core.id
  path := core.path
  origin := core.origin.derived
  policy := core.policy
  journal := core.journal
  dirty := true
  modified := true

namespace Sheet

/-- The node with a number. -/
def find? (s : Sheet) (id : NodeId) : Option Tree := s.tree.nodes.find? (·.id == id)

/-- The effect of an edit, if it succeeds. -/
def edit (s : Sheet) : Edit → Option Sheet
  | .add block content position =>
    match s.find? block with
    | none => none
    | some b =>
      let index := position.getD b.children.length
      if b.isBlock && content.name? != some "" && index ≤ b.children.length then
        let new := (content.tree (b.core.child s.next) true []).forget
        some ⟨s.tree.touch block (Tree.withChildren fun children => children.insertIdx index new),
          s.next + 1⟩
      else none
  | .delete block child =>
    match s.find? block with
    | none => none
    | some b =>
      if b.children.any (·.id == child) then
        some ⟨s.tree.touch block
          (Tree.withChildren fun children => children.filter (·.id != child)), s.next⟩
      else none
  | .setParameters node parameters =>
    match s.find? node with
    | none => none
    | some t =>
      if t.name == "" then none
      else some ⟨s.tree.touch node (Tree.mapStatement ({ · with parameters })), s.next⟩
  | .look _ => some s

end Sheet

namespace Workspace

/-- The node with a number in the tree of another one. -/
def node? (w : Workspace) (root id : NodeId) : Option Tree :=
  (w.forest.find? root).bind fun r => r.nodes.find? (·.id == id)

/-- The workspace after an edit in the tree of a node, if the edit succeeds. -/
def edit (root : NodeId) (w : Workspace) : Edit → Option Workspace
  | .add block content position =>
    match w.node? root block with
    | none => none
    | some b =>
      if b.isBlock then (w.addChild b content position).toOption.map Prod.snd else none
  | .delete block child =>
    match w.node? root block with
    | none => none
    | some b => (w.deleteChild b child).toOption
  | .setParameters node parameters =>
    match w.node? root node with
    | none => none
    | some t => (w.setParameters t parameters).toOption
  | .look blocks => some (w.list blocks)

end Workspace

/-! ## What changes keep -/

variable {t u : Tree} {f : Forest} {id : NodeId} {g : Tree → Tree} {h : Core → Core}

@[simp]
theorem Tree.mapCore_children : (t.mapCore h).children = t.children := by
  cases t <;> rfl

@[simp]
theorem Tree.mapCore_core : (t.mapCore h).core = h t.core := by
  cases t <;> rfl

@[simp]
theorem Tree.mapStatement_children (k : Statement → Statement) :
    (t.mapStatement k).children = t.children := by
  cases t <;> rfl

@[simp]
theorem Tree.mapStatement_core (k : Statement → Statement) : (t.mapStatement k).core = t.core := by
  cases t <;> rfl

@[simp]
theorem Tree.withChildren_core (k : Forest → Forest) : (t.withChildren k).core = t.core := by
  cases t <;> rfl

@[simp]
theorem NodeContent.tree_core (content : NodeContent) (core : Core) (standing : Bool) (f : Forest) :
    (content.tree core standing f).core = core := by
  cases content <;> rfl

@[simp]
theorem NodeContent.tree_children (content : NodeContent) (core : Core) (standing : Bool) :
    (content.tree core standing []).children = [] := by
  cases content <;> rfl

mutual
/-- Nothing is changed where the number is not. -/
theorem Tree.touch_of_not_mem {id : NodeId} {g : Tree → Tree} (t : Tree)
    (ht : ∀ u ∈ t.nodes, u.id ≠ id) : t.touch id g = t := by
  have hself : (t.core.id == id) = false := by simpa [Tree.id] using ht t t.self_mem_nodes
  match t with
  | .comment core text =>
    simp only [Tree.core] at hself
    simp [Tree.touch, hself]
  | .directive core statement =>
    simp only [Tree.core] at hself
    simp [Tree.touch, hself]
  | .block core statement children =>
    have hinside : (Forest.nodes children).any (·.id == id) = false := by
      rw [List.any_eq_false]
      intro u hu
      simpa using ht u (Tree.mem_nodes_of_mem_children hu)
    simp only [Tree.core] at hself
    simp [Tree.touch, hself, hinside]

theorem Forest.touch_of_not_mem {id : NodeId} {g : Tree → Tree} (f : Forest)
    (hf : ∀ u ∈ Forest.nodes f, u.id ≠ id) : Forest.touch id g f = f := by
  match f with
  | [] => rw [Forest.touch]
  | t :: f =>
    rw [Forest.touch, Tree.touch_of_not_mem t fun u hu => hf u (by simp [hu]),
      Forest.touch_of_not_mem f fun u hu => hf u (by simp [hu])]
end

mutual
theorem Tree.update_of_not_mem {id : NodeId} {g : Tree → Tree} (t : Tree)
    (ht : ∀ u ∈ t.nodes, u.id ≠ id) : t.update id g = t := by
  have hself : (t.core.id == id) = false := by simpa [Tree.id] using ht t t.self_mem_nodes
  match t with
  | .comment core text =>
    simp only [Tree.core] at hself
    simp [Tree.update, hself]
  | .directive core statement =>
    simp only [Tree.core] at hself
    simp [Tree.update, hself]
  | .block core statement children =>
    simp only [Tree.core] at hself
    simp [Tree.update, hself,
      Forest.update_of_not_mem children fun u hu => ht u (Tree.mem_nodes_of_mem_children hu)]

theorem Forest.update_of_not_mem {id : NodeId} {g : Tree → Tree} (f : Forest)
    (hf : ∀ u ∈ Forest.nodes f, u.id ≠ id) : Forest.update id g f = f := by
  match f with
  | [] => rw [Forest.update]
  | t :: f =>
    rw [Forest.update, Tree.update_of_not_mem t fun u hu => hf u (by simp [hu]),
      Forest.update_of_not_mem f fun u hu => hf u (by simp [hu])]
end

/-- Numbers that are given once are given once inside, and not to the block again. -/
theorem Tree.nodup_block {core : Core} {statement : Statement} {children : Forest}
    (hnodup : ((Tree.block core statement children).nodes.map Tree.id).Nodup) :
    (∀ u ∈ Forest.nodes children, u.id ≠ core.id) ∧
      ((Forest.nodes children).map Tree.id).Nodup := by
  rw [Tree.nodes, List.map_cons, List.nodup_cons] at hnodup
  refine ⟨fun u hu hid => hnodup.1 (List.mem_map.2 ⟨u, hu, hid⟩), hnodup.2⟩

mutual
/-- Changing the statement of a number changes its node. -/
theorem Tree.mapStatements_eq_update (id : NodeId) (k : Statement → Statement) (t : Tree)
    (hnodup : (t.nodes.map Tree.id).Nodup) :
    t.mapStatements (fun core s => if core.id == id then k s else s) =
      t.update id (Tree.mapStatement k) := by
  match t with
  | .comment core text => simp [Tree.mapStatements, Tree.update, Tree.mapStatement]
  | .directive core statement =>
    by_cases hid : core.id = id <;>
      simp [Tree.mapStatements, Tree.update, Tree.mapStatement, hid]
  | .block core statement children =>
    obtain ⟨hfresh, hnodup⟩ := Tree.nodup_block hnodup
    have hinside := Forest.mapStatements_eq_update id k children hnodup
    rw [Tree.mapStatements, Tree.update, hinside]
    -- the block has the number: nothing inside has it too
    by_cases hid : core.id = id
    · subst hid
      simp [Tree.mapStatement, Forest.update_of_not_mem children hfresh]
    · simp [hid]

theorem Forest.mapStatements_eq_update (id : NodeId) (k : Statement → Statement) (f : Forest)
    (hnodup : ((Forest.nodes f).map Tree.id).Nodup) :
    Forest.mapStatements (fun core s => if core.id == id then k s else s) f =
      Forest.update id (Tree.mapStatement k) f := by
  match f with
  | [] => rw [Forest.mapStatements, Forest.update]
  | t :: f =>
    rw [Forest.nodes_cons, List.map_append, List.nodup_append] at hnodup
    rw [Forest.mapStatements, Forest.update, Tree.mapStatements_eq_update id k t hnodup.1,
      Forest.mapStatements_eq_update id k f hnodup.2.1]
end

/-- What is recorded of a change of a node, given the numbers of the blocks around it. -/
def Core.record (id : NodeId) (around : List NodeId) (core : Core) : Core :=
  if core.id == id then core.touched
  else if around.contains core.id then core.stirred
  else core

theorem Core.record_id_ancestor (id : NodeId) (around : List NodeId) (core : Core) :
    (core.record id around).id = core.id ∧ (core.record id around).ancestor = core.ancestor := by
  unfold Core.record
  split
  · exact ⟨rfl, rfl⟩
  · split <;> exact ⟨rfl, rfl⟩

theorem Forest.markModified_eq (f : Forest) (core : Core) :
    f.markModified core =
      Forest.mapCores (Core.record core.id ((f.lineage core).map Tree.id)) f := rfl

mutual
/-- A change is recorded at the node and at what encloses it. -/
theorem Tree.mapCores_record {id : NodeId} {around : List NodeId} (t : Tree)
    (hnodup : (t.nodes.map Tree.id).Nodup)
    (haround : ∀ u ∈ t.nodes, around.contains u.id = u.encloses id) :
    t.mapCores (Core.record id around) = t.touch id fun u => u := by
  have hself := haround t t.self_mem_nodes
  match t with
  | .comment core text =>
    simp only [Tree.id, Tree.core, Tree.encloses, Tree.children, Forest.nodes_nil,
      List.any_nil] at hself
    by_cases hid : core.id = id <;>
      simp_all [Tree.mapCores, Tree.touch, Core.record, Tree.mapCore]
  | .directive core statement =>
    simp only [Tree.id, Tree.core, Tree.encloses, Tree.children, Forest.nodes_nil,
      List.any_nil] at hself
    by_cases hid : core.id = id <;>
      simp_all [Tree.mapCores, Tree.touch, Core.record, Tree.mapCore]
  | .block core statement children =>
    obtain ⟨hfresh, hnodup⟩ := Tree.nodup_block hnodup
    have haround' : ∀ u ∈ Forest.nodes children, around.contains u.id = u.encloses id :=
      fun u hu => haround u (Tree.mem_nodes_of_mem_children hu)
    rw [Tree.mapCores, Tree.touch, Core.record]
    by_cases hid : core.id = id
    · subst hid
      rw [Forest.mapCores_record children hnodup haround', Forest.touch_of_not_mem children hfresh]
      simp [Tree.mapCore]
    · have hid' : (core.id == id) = false := by simpa using hid
      have hencloses : around.contains core.id = (Forest.nodes children).any (·.id == id) := hself
      -- the block is around the node just when the number is inside
      rw [hid', hencloses, Forest.mapCores_record children hnodup haround']
      cases hany : (Forest.nodes children).any (·.id == id) with
      | true => rfl
      | false =>
        have hnone : ∀ u ∈ Forest.nodes children, u.id ≠ id := by
          intro u hu
          simpa using List.any_eq_false.1 hany u hu
        rw [Forest.touch_of_not_mem children hnone]
        rfl

theorem Forest.mapCores_record {id : NodeId} {around : List NodeId} (f : Forest)
    (hnodup : ((Forest.nodes f).map Tree.id).Nodup)
    (haround : ∀ u ∈ Forest.nodes f, around.contains u.id = u.encloses id) :
    Forest.mapCores (Core.record id around) f = Forest.touch id (fun u => u) f := by
  match f with
  | [] => rw [Forest.mapCores, Forest.touch]
  | t :: f =>
    rw [Forest.nodes_cons, List.map_append, List.nodup_append] at hnodup
    rw [Forest.mapCores, Forest.touch,
      Tree.mapCores_record t hnodup.1 (fun u hu => haround u (by simp [hu])),
      Forest.mapCores_record f hnodup.2.1 (fun u hu => haround u (by simp [hu]))]
end

/-- A change that keeps what a node has leaves only flags behind. -/
theorem Tree.touch_core (hg : t.id = id → (g t).core = t.core) :
    (t.touch id g).core = t.core.touched ∨ (t.touch id g).core = t.core.stirred ∨
      (t.touch id g).core = t.core := by
  cases t with
  | comment core text =>
    rw [Tree.touch]
    split
    · exact .inl (by rw [Tree.mapCore_core, hg (beq_iff_eq.1 ‹_›)])
    · exact .inr (.inr rfl)
  | directive core statement =>
    rw [Tree.touch]
    split
    · exact .inl (by rw [Tree.mapCore_core, hg (beq_iff_eq.1 ‹_›)])
    · exact .inr (.inr rfl)
  | block core statement children =>
    rw [Tree.touch]
    split
    · exact .inl (by rw [Tree.mapCore_core, hg (beq_iff_eq.1 ‹_›)])
    · split
      · exact .inr (.inl rfl)
      · exact .inr (.inr rfl)

theorem Tree.touch_self (ht : t.id = id) : t.touch id g = (g t).mapCore Core.touched := by
  cases t <;> simp_all [Tree.touch, Tree.id, Tree.core]

theorem Tree.touch_inside {core : Core} {statement : Statement} {children : Forest}
    (hid : (Tree.block core statement children).id ≠ id)
    (hany : (Forest.nodes children).any (·.id == id) = true) :
    (Tree.block core statement children).touch id g =
      .block core.stirred statement (Forest.touch id g children) := by
  have hself : (core.id == id) = false := beq_false_of_ne hid
  rw [Tree.touch, hself, if_neg (by simp), if_pos hany]

mutual
theorem Tree.any_nodes_update {id : NodeId} {g : Tree → Tree} (t : Tree)
    (hg : ∀ u ∈ t.nodes, u.id = id → (g u).id = id) :
    (t.update id g).nodes.any (·.id == id) = t.nodes.any (·.id == id) := by
  by_cases hid : t.id = id
  · have hself : t.update id g = g t := by cases t <;> simp_all [Tree.update, Tree.id, Tree.core]
    have hgt := hg t t.self_mem_nodes hid
    -- the number is found at the top before and after
    rw [hself, (g t).nodes_eq, t.nodes_eq, List.any_cons, List.any_cons, hgt, hid]
    simp
  · match t with
    | .comment core text => simp_all [Tree.update, Tree.id, Tree.core]
    | .directive core statement => simp_all [Tree.update, Tree.id, Tree.core]
    | .block core statement children =>
      have hid' : (core.id == id) = false := by simpa [Tree.id, Tree.core] using hid
      have hinside := Forest.any_nodes_update children
        fun u hu => hg u (Tree.mem_nodes_of_mem_children hu)
      rw [Tree.update, hid', if_neg (by simp), Tree.nodes, Tree.nodes, List.any_cons, List.any_cons,
        hinside]
      rfl

theorem Forest.any_nodes_update {id : NodeId} {g : Tree → Tree} (f : Forest)
    (hg : ∀ u ∈ Forest.nodes f, u.id = id → (g u).id = id) :
    (Forest.nodes (Forest.update id g f)).any (·.id == id) =
      (Forest.nodes f).any (·.id == id) := by
  match f with
  | [] => rw [Forest.update]
  | t :: f =>
    rw [Forest.update, Forest.nodes_cons, Forest.nodes_cons, List.any_append, List.any_append,
      Tree.any_nodes_update t fun u hu => hg u (by simp [hu]),
      Forest.any_nodes_update f fun u hu => hg u (by simp [hu])]
end

mutual
/-- Changing a node and then recording the change is touching it. -/
theorem Tree.touch_update {id : NodeId} {g : Tree → Tree} (t : Tree)
    (hg : ∀ u ∈ t.nodes, u.id = id → (g u).id = id) :
    (t.update id g).touch id (fun u => u) = t.touch id g := by
  by_cases hid : t.id = id
  · have hself : t.update id g = g t := by cases t <;> simp_all [Tree.update, Tree.id, Tree.core]
    rw [hself, Tree.touch_self (hg t t.self_mem_nodes hid), Tree.touch_self hid]
  · match t with
    | .comment core text => simp_all [Tree.update, Tree.touch, Tree.id, Tree.core]
    | .directive core statement => simp_all [Tree.update, Tree.touch, Tree.id, Tree.core]
    | .block core statement children =>
      have hid' : (core.id == id) = false := by simpa [Tree.id, Tree.core] using hid
      have hg' : ∀ u ∈ Forest.nodes children, u.id = id → (g u).id = id :=
        fun u hu => hg u (Tree.mem_nodes_of_mem_children hu)
      -- the update keeps the number, so it is found inside again when the change is recorded
      have hany := Forest.any_nodes_update children hg'
      have hinside := Forest.touch_update children hg'
      rw [Tree.update, hid', if_neg (by simp), Tree.touch, Tree.touch, hid', hany, hinside]
      cases h : (Forest.nodes children).any (·.id == id) with
      | true => rfl
      | false =>
        have hnone : ∀ u ∈ Forest.nodes children, u.id ≠ id := by
          intro u hu
          simpa using List.any_eq_false.1 h u hu
        simp [Forest.update_of_not_mem children hnone]

theorem Forest.touch_update {id : NodeId} {g : Tree → Tree} (f : Forest)
    (hg : ∀ u ∈ Forest.nodes f, u.id = id → (g u).id = id) :
    Forest.touch id (fun u => u) (Forest.update id g f) = Forest.touch id g f := by
  match f with
  | [] => rw [Forest.update, Forest.touch, Forest.touch]
  | t :: f =>
    rw [Forest.update, Forest.touch, Forest.touch,
      Tree.touch_update t fun u hu => hg u (by simp [hu]),
      Forest.touch_update f fun u hu => hg u (by simp [hu])]
end

/-! ## Tidiness -/

/-- Children are linked to their blocks. -/
def Tree.Linked (t : Tree) : Prop := ∀ u ∈ t.nodes, ∀ v ∈ u.children, v.core.ancestor = some u.id

theorem Tree.linked_iff :
    t.Linked ↔ (∀ v ∈ t.children, v.core.ancestor = some t.id) ∧ ∀ v ∈ t.children, v.Linked := by
  constructor
  · intro ht
    refine ⟨ht t t.self_mem_nodes, fun v hv u hu => ht u ?_⟩
    exact Tree.mem_nodes_of_mem_children (Forest.mem_nodes.2 ⟨v, hv, hu⟩)
  · rintro ⟨hself, hinside⟩ u hu
    rw [t.nodes_eq] at hu
    rcases List.mem_cons.1 hu with rfl | hu
    · exact hself
    · obtain ⟨v, hv, hu⟩ := Forest.mem_nodes.1 hu
      exact hinside v hv u hu

theorem Forest.tidy_iff :
    f.Tidy ↔ ((Forest.nodes f).map Tree.id).Nodup ∧ ∀ t ∈ f, t.Linked := by
  constructor
  · rintro ⟨hnodup, hlinked⟩
    exact ⟨hnodup, fun t ht u hu => hlinked u (Forest.mem_nodes.2 ⟨t, ht, hu⟩)⟩
  · rintro ⟨hnodup, hlinked⟩
    refine ⟨hnodup, fun u hu => ?_⟩
    obtain ⟨t, ht, hu⟩ := Forest.mem_nodes.1 hu
    exact hlinked t ht u hu

theorem Forest.mapCores_eq_map : Forest.mapCores h f = f.map (Tree.mapCores h) := by
  induction f with
  | nil => rw [Forest.mapCores, List.map_nil]
  | cons t f ih => rw [Forest.mapCores, ih, List.map_cons]

theorem Forest.mapStatements_eq_map (k : Core → Statement → Statement) :
    Forest.mapStatements k f = f.map (Tree.mapStatements k) := by
  induction f with
  | nil => rw [Forest.mapStatements, List.map_nil]
  | cons t f ih => rw [Forest.mapStatements, ih, List.map_cons]

theorem Forest.update_eq_map : Forest.update id g f = f.map (Tree.update id g) := by
  induction f with
  | nil => rw [Forest.update, List.map_nil]
  | cons t f ih => rw [Forest.update, ih, List.map_cons]

theorem Forest.touch_eq_map : Forest.touch id g f = f.map (Tree.touch id g) := by
  induction f with
  | nil => rw [Forest.touch, List.map_nil]
  | cons t f ih => rw [Forest.touch, ih, List.map_cons]

/-- What encloses a change is dirty. -/
theorem Tree.dirty_touch (ht : t.nodes.any (·.id == id) = true) :
    (t.touch id g).core.dirty = true := by
  by_cases hid : t.id = id
  · rw [Tree.touch_self hid, Tree.mapCore_core]
    rfl
  · rw [t.nodes_eq, List.any_cons, beq_false_of_ne hid, Bool.false_or] at ht
    cases t with
    | block core statement children =>
      rw [Tree.touch_inside hid ht]
      rfl
    | _ => simp [Tree.children] at ht

theorem Forest.exists_dirty_touch (hf : (Forest.nodes f).any (·.id == id) = true) :
    ∃ v ∈ Forest.touch id g f, v.core.dirty = true := by
  obtain ⟨u, hu, hid⟩ := List.any_eq_true.1 hf
  obtain ⟨t, ht, hut⟩ := Forest.mem_nodes.1 hu
  rw [Forest.touch_eq_map]
  exact ⟨_, List.mem_map_of_mem ht, Tree.dirty_touch (List.any_eq_true.2 ⟨u, hut, hid⟩)⟩

mutual
/-- What all nodes have, they have after a change, if the changed node keeps it and so do the blocks
around it. -/
theorem Tree.forall_nodes_touch {P : Tree → Prop} {id : NodeId} {g : Tree → Tree} (t : Tree)
    (hstirred : ∀ core statement children children', (∃ v ∈ children', v.core.dirty = true) →
      P (.block core statement children) → P (.block core.stirred statement children'))
    (hg : ∀ u ∈ t.nodes, u.id = id → (∀ v ∈ u.nodes, P v) →
      ∀ v ∈ ((g u).mapCore Core.touched).nodes, P v)
    (ht : ∀ u ∈ t.nodes, P u) : ∀ u ∈ (t.touch id g).nodes, P u := by
  by_cases hid : t.id = id
  · rw [Tree.touch_self hid]
    exact hg t t.self_mem_nodes hid ht
  · have hself : (t.core.id == id) = false := by simpa [Tree.id] using hid
    match t with
    | .comment core text =>
      simp only [Tree.core] at hself
      rwa [Tree.touch, hself, if_neg (by simp)]
    | .directive core statement =>
      simp only [Tree.core] at hself
      rwa [Tree.touch, hself, if_neg (by simp)]
    | .block core statement children =>
      simp only [Tree.core] at hself
      rw [Tree.touch, hself, if_neg (by simp)]
      split
      · -- a block around the change keeps the property, with a dirty child now
        rename_i hany
        intro u hu
        rw [Tree.nodes] at hu
        rcases List.mem_cons.1 hu with rfl | hu
        · exact hstirred _ _ _ _ (Forest.exists_dirty_touch hany) (ht _ (Tree.self_mem_nodes _))
        · exact Forest.forall_nodes_touch children hstirred
            (fun v hv => hg v (Tree.mem_nodes_of_mem_children hv))
            (fun v hv => ht v (Tree.mem_nodes_of_mem_children hv)) u hu
      · exact ht

theorem Forest.forall_nodes_touch {P : Tree → Prop} {id : NodeId} {g : Tree → Tree} (f : Forest)
    (hstirred : ∀ core statement children children', (∃ v ∈ children', v.core.dirty = true) →
      P (.block core statement children) → P (.block core.stirred statement children'))
    (hg : ∀ u ∈ Forest.nodes f, u.id = id → (∀ v ∈ u.nodes, P v) →
      ∀ v ∈ ((g u).mapCore Core.touched).nodes, P v)
    (hf : ∀ u ∈ Forest.nodes f, P u) : ∀ u ∈ Forest.nodes (Forest.touch id g f), P u := by
  match f with
  | [] => simp [Forest.touch]
  | t :: f =>
    intro u hu
    rw [Forest.touch, Forest.nodes_cons, List.mem_append] at hu
    rcases hu with hu | hu
    · exact Tree.forall_nodes_touch t hstirred (fun v hv => hg v (by simp [hv]))
        (fun v hv => hf v (by simp [hv])) u hu
    · exact Forest.forall_nodes_touch f hstirred (fun v hv => hg v (by simp [hv]))
        (fun v hv => hf v (by simp [hv])) u hu
end

@[simp]
theorem Tree.mapCores_core : (t.mapCores h).core = h t.core := by
  cases t <;> simp [Tree.mapCores, Tree.core]

theorem Tree.mapCores_children : (t.mapCores h).children = t.children.map (Tree.mapCores h) := by
  cases t <;> simp [Tree.mapCores, Tree.children, Forest.mapCores_eq_map]

mutual
theorem Tree.nodes_mapCores {h : Core → Core} (t : Tree) :
    (t.mapCores h).nodes = t.nodes.map (Tree.mapCores h) := by
  match t with
  | .comment core text => simp [Tree.mapCores, Tree.nodes]
  | .directive core statement => simp [Tree.mapCores, Tree.nodes]
  | .block core statement children =>
    rw [Tree.mapCores, Tree.nodes, Tree.nodes, Forest.nodes_mapCores children, List.map_cons,
      Tree.mapCores]

theorem Forest.nodes_mapCores {h : Core → Core} (f : Forest) :
    Forest.nodes (Forest.mapCores h f) = (Forest.nodes f).map (Tree.mapCores h) := by
  match f with
  | [] => simp [Forest.mapCores]
  | t :: f =>
    rw [Forest.mapCores, Forest.nodes_cons, Forest.nodes_cons, Tree.nodes_mapCores t,
      Forest.nodes_mapCores f, List.map_append]
end

/-- Flags play no part in tidiness. -/
theorem Forest.Tidy.mapCores (hf : f.Tidy)
    (hh : ∀ core, (h core).id = core.id ∧ (h core).ancestor = core.ancestor) :
    (Forest.mapCores h f).Tidy := by
  have hid : ∀ t : Tree, (t.mapCores h).id = t.id := fun t => by
    rw [Tree.id, Tree.mapCores_core, (hh _).1, Tree.id]
  constructor
  · rw [Forest.nodes_mapCores, List.map_map]
    have hcomp : Tree.id ∘ Tree.mapCores h = Tree.id := funext hid
    rw [hcomp]
    exact hf.nodup
  · intro t ht u hu
    rw [Forest.nodes_mapCores] at ht
    obtain ⟨t', ht', rfl⟩ := List.mem_map.1 ht
    rw [Tree.mapCores_children] at hu
    obtain ⟨u', hu', rfl⟩ := List.mem_map.1 hu
    rw [Tree.mapCores_core, (hh _).2, hid]
    exact hf.linked t' ht' u' hu'

theorem Tree.update_self (ht : t.id = id) : t.update id g = g t := by
  cases t <;> simp_all [Tree.update, Tree.id, Tree.core]

theorem Tree.update_core (hg : t.id = id → (g t).core = t.core) :
    (t.update id g).core = t.core := by
  by_cases hid : t.id = id
  · rw [Tree.update_self hid, hg hid]
  · cases t <;> simp_all [Tree.update, Tree.id, Tree.core]

theorem Tree.update_ancestor (hg : t.id = id → (g t).core.ancestor = t.core.ancestor) :
    (t.update id g).core.ancestor = t.core.ancestor := by
  by_cases hid : t.id = id
  · rw [Tree.update_self hid, hg hid]
  · rw [Tree.update_core fun h => absurd h hid]

mutual
theorem Tree.update_linked {id : NodeId} {g : Tree → Tree} (t : Tree) (ht : t.Linked)
    (hg : ∀ u ∈ t.nodes, u.id = id → (g u).Linked ∧ (g u).core.ancestor = u.core.ancestor) :
    (t.update id g).Linked := by
  by_cases hid : t.id = id
  · rw [Tree.update_self hid]
    exact (hg t t.self_mem_nodes hid).1
  · match t with
    | .comment core text => simpa [Tree.update, show core.id ≠ id from hid] using ht
    | .directive core statement => simpa [Tree.update, show core.id ≠ id from hid] using ht
    | .block core statement children =>
      have hid' : (core.id == id) = false := by simpa [Tree.id, Tree.core] using hid
      have hg' : ∀ u ∈ Forest.nodes children, u.id = id →
          (g u).Linked ∧ (g u).core.ancestor = u.core.ancestor :=
        fun u hu => hg u (Tree.mem_nodes_of_mem_children hu)
      obtain ⟨hself, hinside⟩ := Tree.linked_iff.1 ht
      rw [Tree.update, hid', if_neg (by simp), Tree.linked_iff]
      refine ⟨fun v hv => ?_, Forest.update_linked children hinside hg'⟩
      rw [Tree.children, Forest.update_eq_map] at hv
      obtain ⟨x, hx, rfl⟩ := List.mem_map.1 hv
      rw [Tree.update_ancestor fun hid => (hg' x (Forest.mem_nodes_of_mem hx) hid).2]
      exact hself x hx

theorem Forest.update_linked {id : NodeId} {g : Tree → Tree} (f : Forest) (hf : ∀ t ∈ f, t.Linked)
    (hg : ∀ u ∈ Forest.nodes f, u.id = id → (g u).Linked ∧ (g u).core.ancestor = u.core.ancestor) :
    ∀ t ∈ Forest.update id g f, t.Linked := by
  match f with
  | [] => simp [Forest.update]
  | t :: f =>
    rw [Forest.update]
    intro u hu
    rcases List.mem_cons.1 hu with rfl | hu
    · exact Tree.update_linked t (hf t (by simp)) fun u hu => hg u (by simp [hu])
    · exact Forest.update_linked f (fun t ht => hf t (by simp [ht]))
        (fun u hu => hg u (by simp [hu])) u hu
end

mutual
/-- The numbers after a change of one node, up to their order. -/
theorem Tree.update_perm {id : NodeId} {g : Tree → Tree} (as bs : List NodeId) (t : Tree)
    (hnodup : (t.nodes.map Tree.id).Nodup) (hmem : ∃ u ∈ t.nodes, u.id = id)
    (hg : ∀ u ∈ t.nodes, u.id = id →
      (as ++ (g u).nodes.map Tree.id).Perm (bs ++ u.nodes.map Tree.id)) :
    (as ++ (t.update id g).nodes.map Tree.id).Perm (bs ++ t.nodes.map Tree.id) := by
  by_cases hid : t.id = id
  · rw [Tree.update_self hid]
    exact hg t t.self_mem_nodes hid
  · obtain ⟨u, hu, huid⟩ := hmem
    rw [t.nodes_eq] at hu
    have hu' : u ∈ Forest.nodes t.children := by
      refine (List.mem_cons.1 hu).resolve_left ?_
      rintro rfl
      exact hid huid
    match t with
    | .comment core text => simp [Tree.children] at hu'
    | .directive core statement => simp [Tree.children] at hu'
    | .block core statement children =>
      have hid' : (core.id == id) = false := by simpa [Tree.id, Tree.core] using hid
      have hinside := Forest.update_perm as bs children (Tree.nodup_block hnodup).2 ⟨u, hu', huid⟩
        fun u hu => hg u (Tree.mem_nodes_of_mem_children hu)
      rw [Tree.update, hid', if_neg (by simp), Tree.nodes, Tree.nodes, List.map_cons, List.map_cons]
      exact (List.perm_middle.trans (hinside.cons _)).trans List.perm_middle.symm

theorem Forest.update_perm {id : NodeId} {g : Tree → Tree} (as bs : List NodeId) (f : Forest)
    (hnodup : ((Forest.nodes f).map Tree.id).Nodup) (hmem : ∃ u ∈ Forest.nodes f, u.id = id)
    (hg : ∀ u ∈ Forest.nodes f, u.id = id →
      (as ++ (g u).nodes.map Tree.id).Perm (bs ++ u.nodes.map Tree.id)) :
    (as ++ (Forest.nodes (Forest.update id g f)).map Tree.id).Perm
      (bs ++ (Forest.nodes f).map Tree.id) := by
  match f with
  | [] =>
    obtain ⟨u, hu, -⟩ := hmem
    simp at hu
  | t :: f =>
    rw [Forest.nodes_cons, List.map_append, List.nodup_append] at hnodup
    obtain ⟨ht, hf, hdisjoint⟩ := hnodup
    rw [Forest.update, Forest.nodes_cons, Forest.nodes_cons, List.map_append, List.map_append]
    -- the number is given once, so the update is in the first tree or in the others
    by_cases hfirst : ∃ u ∈ t.nodes, u.id = id
    · have hrest : ∀ v ∈ Forest.nodes f, v.id ≠ id := by
        obtain ⟨u, hu, huid⟩ := hfirst
        exact fun v hv hvid => hdisjoint u.id (List.mem_map_of_mem hu) v.id
          (List.mem_map_of_mem hv) (huid.trans hvid.symm)
      rw [Forest.update_of_not_mem f hrest, ← List.append_assoc, ← List.append_assoc]
      exact (Tree.update_perm as bs t ht hfirst fun u hu => hg u (by simp [hu])).append_right _
    · have hrest : ∃ u ∈ Forest.nodes f, u.id = id := by
        obtain ⟨u, hu, huid⟩ := hmem
        rw [Forest.nodes_cons, List.mem_append] at hu
        exact ⟨u, hu.resolve_left fun hu => hfirst ⟨u, hu, huid⟩, huid⟩
      rw [Tree.update_of_not_mem t fun u hu huid => hfirst ⟨u, hu, huid⟩]
      have hinside := Forest.update_perm as bs f hf hrest fun u hu => hg u (by simp [hu])
      refine (List.perm_append_comm_assoc ..).trans ?_
      exact (hinside.append_left _).trans (List.perm_append_comm_assoc ..)
end

mutual
theorem Tree.mem_nodes_update {g : Tree → Tree} {u : Tree} (t : Tree)
    (hnodup : (t.nodes.map Tree.id).Nodup) (hu : u ∈ t.nodes) :
    g u ∈ (t.update u.id g).nodes := by
  rw [t.nodes_eq] at hu
  rcases List.mem_cons.1 hu with rfl | hu
  · rw [Tree.update_self rfl]
    exact Tree.self_mem_nodes _
  · match t with
    | .comment core text => simp [Tree.children] at hu
    | .directive core statement => simp [Tree.children] at hu
    | .block core statement children =>
      obtain ⟨hfresh, hnodup⟩ := Tree.nodup_block hnodup
      have hid : (core.id == u.id) = false := by simpa using (hfresh u hu).symm
      rw [Tree.update, hid, if_neg (by simp), Tree.nodes]
      exact List.mem_cons_of_mem _ (Forest.mem_nodes_update children hnodup hu)

theorem Forest.mem_nodes_update {g : Tree → Tree} {u : Tree} (f : Forest)
    (hnodup : ((Forest.nodes f).map Tree.id).Nodup) (hu : u ∈ Forest.nodes f) :
    g u ∈ Forest.nodes (Forest.update u.id g f) := by
  match f with
  | [] => simp at hu
  | t :: f =>
    rw [Forest.nodes_cons, List.map_append, List.nodup_append] at hnodup
    rw [Forest.update, Forest.nodes_cons, List.mem_append]
    rw [Forest.nodes_cons, List.mem_append] at hu
    exact hu.imp (Tree.mem_nodes_update t hnodup.1) (Forest.mem_nodes_update f hnodup.2.1)
end

theorem Tree.exists_of_isBlock (ht : t.isBlock = true) :
    ∃ core statement children, t = .block core statement children := by
  cases t with
  | block core statement children => exact ⟨core, statement, children, rfl⟩
  | _ => simp [Tree.isBlock] at ht

/-- Recording a change of a node in a tree whose top was made first touches the tree. -/
theorem Forest.Tidy.touch_mem_markModified {r : Tree} (hf : f.Tidy) (hr : r ∈ f)
    (hfirst : r.id = 0) (htop : r.core.ancestor = none) (ht : t ∈ r.nodes) :
    r.touch t.id (fun u => u) ∈ f.markModified t.core := by
  have hrnode := Forest.mem_nodes_of_mem hr
  have hsub := Forest.nodes_sublist f hrnode
  have hperm := hf.lineage_perm hr hfirst htop ht
  -- the lineage of the node has the numbers of the blocks that enclose it
  have haround : ∀ u ∈ r.nodes,
      ((f.lineage t.core).map Tree.id).contains u.id = u.encloses t.id := by
    intro u hu
    rw [Bool.eq_iff_iff, List.contains_iff_mem, List.mem_map]
    constructor
    · rintro ⟨v, hv, hid⟩
      obtain ⟨hv, hencloses⟩ := List.mem_filter.1 (hperm.mem_iff.1 hv)
      rwa [hf.eq_of_id_eq (hsub.subset hv) (hsub.subset hu) hid] at hencloses
    · intro hencloses
      exact ⟨u, hperm.mem_iff.2 (List.mem_filter.2 ⟨hu, hencloses⟩), rfl⟩
  have htouch := Tree.mapCores_record r (hf.nodup_nodes hrnode) haround
  rw [Forest.markModified_eq, Forest.mapCores_eq_map, ← Tree.id, ← htouch]
  exact List.mem_map_of_mem hr

/-- One node becomes another one that keeps its place, with nodes taken out or made for that. The
numbers that are made are new, and all others stay as they are. -/
theorem Forest.Tidy.change (hf : f.Tidy) (loose : Forest) (made : List NodeId)
    (ht : t ∈ Forest.nodes f) (hcore : (g t).core = t.core) (hlinked : (g t).Linked)
    (hloose : ∀ u ∈ loose, u.Linked)
    (hperm : ((Forest.nodes loose).map Tree.id ++ (g t).nodes.map Tree.id).Perm
      (made ++ t.nodes.map Tree.id))
    (hmade : made.Nodup) (hfresh : ∀ id ∈ made, ∀ u ∈ Forest.nodes f, u.id ≠ id) :
    Forest.Tidy (loose ++ f.update t.id g) ∧
      ((Forest.nodes (loose ++ f.update t.id g)).map Tree.id).Perm
        (made ++ (Forest.nodes f).map Tree.id) := by
  have hunique : ∀ u ∈ Forest.nodes f, u.id = t.id → u = t := fun u hu hid =>
    hf.eq_of_id_eq hu ht hid
  obtain ⟨hnodup, hlinks⟩ := Forest.tidy_iff.1 hf
  have hids : ((Forest.nodes (loose ++ f.update t.id g)).map Tree.id).Perm
      (made ++ (Forest.nodes f).map Tree.id) := by
    rw [Forest.nodes_append, List.map_append]
    refine Forest.update_perm _ _ f hnodup ⟨t, ht, rfl⟩ fun u hu hid => ?_
    rw [hunique u hu hid]
    exact hperm
  refine ⟨?_, hids⟩
  rw [Forest.tidy_iff, hids.nodup_iff, List.nodup_append]
  refine ⟨⟨hmade, hnodup, ?_⟩, fun u hu => ?_⟩
  · intro id hid other hother
    obtain ⟨u, hu, rfl⟩ := List.mem_map.1 hother
    exact (hfresh id hid u hu).symm
  · rcases List.mem_append.1 hu with hu | hu
    · exact hloose u hu
    · refine Forest.update_linked f hlinks (fun u hu hid => ?_) u hu
      rw [hunique u hu hid, hcore]
      exact ⟨hlinked, rfl⟩

/-! ## Children put in and taken out -/

/-- A child that is linked to its block can be put in anywhere. -/
theorem Tree.Linked.insertChild {new : Tree} (ht : t.Linked) (hnew : new.core.ancestor = some t.id)
    (hinside : new.Linked) (index : Nat) :
    (t.withChildren fun children => children.insertIdx index new).Linked := by
  cases t with
  | block core statement children =>
    obtain ⟨hself, hothers⟩ := Tree.linked_iff.1 ht
    rw [Tree.withChildren, Tree.linked_iff]
    constructor <;> intro v hv <;> rcases List.eq_or_mem_of_mem_insertIdx hv with rfl | hv
    · exact hnew
    · exact hself v hv
    · exact hinside
    · exact hothers v hv
  | _ => exact ht

theorem Tree.ids_insertChild {new : Tree} {index : Nat} (hblock : t.isBlock = true)
    (hindex : index ≤ t.children.length) :
    ((t.withChildren fun children => children.insertIdx index new).nodes.map Tree.id).Perm
      (new.nodes.map Tree.id ++ t.nodes.map Tree.id) := by
  obtain ⟨core, statement, children, rfl⟩ := Tree.exists_of_isBlock hblock
  have hperm := (Forest.nodes_perm (List.perm_insertIdx new children hindex)).map Tree.id
  rw [Forest.nodes_cons, List.map_append] at hperm
  rw [Tree.withChildren, Tree.nodes, Tree.nodes, List.map_cons, List.map_cons]
  exact (hperm.cons _).trans List.perm_middle.symm

/-- Children can be taken out. -/
theorem Tree.Linked.filterChildren (ht : t.Linked) (p : Tree → Bool) :
    (t.withChildren fun children => children.filter p).Linked := by
  cases t with
  | block core statement children =>
    obtain ⟨hself, hinside⟩ := Tree.linked_iff.1 ht
    rw [Tree.withChildren, Tree.linked_iff]
    exact ⟨fun v hv => hself v (List.mem_of_mem_filter hv),
      fun v hv => hinside v (List.mem_of_mem_filter hv)⟩
  | _ => exact ht

/-- Filtering by the number of a child takes out just the child. -/
theorem Tree.filter_id_ne {before after : Forest}
    (hnodup : ((Forest.nodes (before ++ u :: after)).map Tree.id).Nodup) :
    (before ++ u :: after).filter (fun v => v.id != u.id) = before ++ after := by
  have htops : ((before ++ u :: after).map Tree.id).Nodup :=
    hnodup.sublist ((Forest.sublist_nodes _).map _)
  rw [List.map_append, List.map_cons, List.nodup_middle, List.nodup_cons] at htops
  have hothers : ∀ v ∈ before ++ after, v.id ≠ u.id := by
    intro v hv hid
    refine htops.1 ?_
    rw [← List.map_append, ← hid]
    exact List.mem_map_of_mem hv
  rw [List.filter_append, List.filter_cons, if_neg (by simp), ← List.filter_append,
    List.filter_eq_self]
  simpa using hothers

theorem Tree.ids_deleteChild (hnodup : (t.nodes.map Tree.id).Nodup) (hu : u ∈ t.children) :
    (u.nodes.map Tree.id ++ (t.withChildren fun children =>
      children.filter fun v => v.id != u.id).nodes.map Tree.id).Perm (t.nodes.map Tree.id) := by
  have hblock : t.isBlock = true := by
    cases t <;> simp_all [Tree.children, Tree.isBlock]
  obtain ⟨core, statement, children, rfl⟩ := Tree.exists_of_isBlock hblock
  obtain ⟨before, after, rfl⟩ := List.append_of_mem hu
  rw [Tree.withChildren, Tree.filter_id_ne (Tree.nodup_block hnodup).2, Tree.nodes, Tree.nodes,
    List.map_cons, List.map_cons]
  have hmiddle : (before ++ u :: after).Perm (u :: (before ++ after)) := List.perm_middle
  have hperm := (Forest.nodes_perm hmiddle).map Tree.id
  rw [Forest.nodes_cons, List.map_append] at hperm
  exact List.perm_middle.trans (hperm.symm.cons _)

/-- Other parameters leave links and numbers as they are. -/
theorem Tree.Linked.mapStatement (ht : t.Linked) (k : Statement → Statement) :
    (t.mapStatement k).Linked := by
  have hlinked := Tree.linked_iff.1 ht
  rw [Tree.linked_iff, Tree.mapStatement_children, Tree.id, Tree.mapStatement_core]
  exact hlinked

theorem Tree.ids_mapStatement (k : Statement → Statement) :
    (t.mapStatement k).nodes.map Tree.id = t.nodes.map Tree.id := by
  rw [Tree.nodes_eq, t.nodes_eq, Tree.mapStatement_children, List.map_cons, List.map_cons,
    Tree.id, Tree.mapStatement_core, Tree.id]

/-! ## Open documents -/

/-- The workspace has a document open, whose tree has the given top. -/
structure Workspace.Tended (w : Workspace) (r : Tree) : Prop where
  mem : r ∈ w.forest
  first : r.id = 0
  top : r.core.ancestor = none
  tidy : w.forest.Tidy
  lt_next : ∀ t ∈ Forest.nodes w.forest, t.id < w.next

namespace Workspace.Tended

variable {w : Workspace} {r : Tree}

theorem mem_nodes (hw : w.Tended r) (ht : t ∈ r.nodes) : t ∈ Forest.nodes w.forest :=
  (Forest.nodes_sublist _ (Forest.mem_nodes_of_mem hw.mem)).subset ht

/-- One node of the document becomes another one that keeps its place, and is recorded as modified.
Nodes may be taken out or made for that. -/
theorem change (hw : w.Tended r) (loose : Forest) (made : List NodeId) {next : NodeId}
    (ht : t ∈ r.nodes) (hcore : (g t).core = t.core) (hlinked : (g t).Linked)
    (hloose : ∀ u ∈ loose, u.Linked)
    (hperm : ((Forest.nodes loose).map Tree.id ++ (g t).nodes.map Tree.id).Perm
      (made ++ t.nodes.map Tree.id))
    (hmade : made.Nodup) (hfresh : ∀ id ∈ made, w.next ≤ id ∧ id < next) (hnext : w.next ≤ next) :
    Tended ⟨Forest.markModified (loose ++ w.forest.update t.id g) t.core, next, w.journal⟩
      (r.touch t.id g) := by
  have htnode := hw.mem_nodes ht
  have hunique : ∀ u ∈ Forest.nodes w.forest, u.id = t.id → u = t := fun u hu hid =>
    hw.tidy.eq_of_id_eq hu htnode hid
  obtain ⟨htidy, hids⟩ := hw.tidy.change loose made htnode hcore hlinked hloose hperm hmade
    fun id hid u hu => Nat.ne_of_lt (Nat.lt_of_lt_of_le (hw.lt_next u hu) (hfresh id hid).1)
  -- the top stays the top, and the change is recorded in its tree
  have hcore' : (r.update t.id g).core = r.core := by
    refine Tree.update_core fun hid => ?_
    rw [hunique r (Forest.mem_nodes_of_mem hw.mem) hid]
    exact hcore
  have hmem : r.update t.id g ∈ loose ++ w.forest.update t.id g := by
    rw [Forest.update_eq_map]
    exact List.mem_append_right _ (List.mem_map_of_mem hw.mem)
  have hnode : g t ∈ (r.update t.id g).nodes :=
    Tree.mem_nodes_update r (hw.tidy.nodup_nodes (Forest.mem_nodes_of_mem hw.mem)) ht
  have hgid : (g t).id = t.id := by rw [Tree.id, hcore, Tree.id]
  have htouch := htidy.touch_mem_markModified hmem (by rw [Tree.id, hcore']; exact hw.first)
    (by rw [hcore']; exact hw.top) hnode
  rw [hgid, hcore, Tree.touch_update r fun u hu hid => by
    rw [hunique u (hw.mem_nodes hu) hid, hgid]] at htouch
  -- a record leaves numbers and links alone
  have hkeep : r.id = t.id → (g r).core = r.core := by
    intro hid
    rw [hunique r (Forest.mem_nodes_of_mem hw.mem) hid, hcore]
  refine ⟨htouch, ?_, ?_, htidy.mapCores (Core.record_id_ancestor _ _), fun u hu => ?_⟩
  · rw [Tree.id]
    rcases Tree.touch_core hkeep with h | h | h <;> rw [h] <;> exact hw.first
  · rcases Tree.touch_core hkeep with h | h | h <;> rw [h] <;> exact hw.top
  · rw [Forest.markModified_eq, Forest.nodes_mapCores] at hu
    obtain ⟨v, hv, rfl⟩ := List.mem_map.1 hu
    have hvid : v.id ∈ made ++ (Forest.nodes w.forest).map Tree.id :=
      hids.mem_iff.1 (List.mem_map_of_mem hv)
    have hlt : v.id < next := by
      rcases List.mem_append.1 hvid with hvid | hvid
      · exact (hfresh _ hvid).2
      · obtain ⟨x, hx, hxid⟩ := List.mem_map.1 hvid
        rw [← hxid]
        exact Nat.lt_of_lt_of_le (hw.lt_next x hx) hnext
    rw [Tree.id, Tree.mapCores_core, (Core.record_id_ancestor ..).1]
    exact hlt

end Workspace.Tended

/-! ## Forgetting -/

namespace Tree

@[simp]
theorem forget_core : t.forget.core = t.core := by
  cases t <;> simp [forget, mapStatements, core]

@[simp]
theorem forget_id : t.forget.id = t.id := by
  rw [Tree.id, forget_core, Tree.id]

theorem forget_children : t.forget.children = t.children.map forget := by
  cases t <;> simp [forget, mapStatements, children, Forest.mapStatements_eq_map]

@[simp]
theorem forget_name : t.forget.name = t.name := by
  cases t <;> simp [forget, mapStatements, name, statement?]

@[simp]
theorem forget_isBlock : t.forget.isBlock = t.isBlock := by
  cases t <;> simp [forget, mapStatements, isBlock]

theorem forget_block (core : Core) (statement : Statement) (children : Forest) :
    (Tree.block core statement children).forget =
      .block core { statement with standing := none } (children.map forget) := by
  simp [forget, mapStatements, Forest.mapStatements_eq_map]

theorem forget_mapCore : (t.mapCore h).forget = t.forget.mapCore h := by
  cases t <;> simp [forget, mapStatements, mapCore]

theorem forget_withChildren {g k : Forest → Forest}
    (hg : ∀ f : Forest, (g f).map forget = k (f.map forget)) (t : Tree) :
    (t.withChildren g).forget = t.forget.withChildren k := by
  cases t with
  | block core statement children =>
    rw [withChildren, forget_block, forget_block, withChildren, hg]
  | _ => rfl

theorem forget_mapStatement (parameters : List String) (t : Tree) :
    (t.mapStatement ({ · with parameters })).forget =
      t.forget.mapStatement ({ · with parameters }) := by
  cases t <;> simp [mapStatement, forget, mapStatements]

end Tree

/-- What a new node remembers is forgotten. -/
theorem NodeContent.forget_tree (content : NodeContent) (core : Core) (standing : Bool) :
    (content.tree core standing []).forget = (content.tree core true []).forget := by
  cases content <;> simp [tree, Tree.forget, Tree.mapStatements]

mutual
theorem Tree.nodes_forget (t : Tree) : t.forget.nodes = t.nodes.map Tree.forget := by
  match t with
  | .comment core text => simp [Tree.forget, Tree.mapStatements, Tree.nodes]
  | .directive core statement => simp [Tree.forget, Tree.mapStatements, Tree.nodes]
  | .block core statement children =>
    rw [Tree.forget_block, Tree.nodes, Tree.nodes, List.map_cons, Tree.forget_block,
      Forest.nodes_forget children]

theorem Forest.nodes_forget (f : Forest) :
    Forest.nodes (f.map Tree.forget) = (Forest.nodes f).map Tree.forget := by
  match f with
  | [] => simp
  | t :: f =>
    rw [List.map_cons, Forest.nodes_cons, Forest.nodes_cons, Tree.nodes_forget t,
      Forest.nodes_forget f, List.map_append]
end

theorem Forest.ids_forget (f : Forest) :
    (Forest.nodes (f.map Tree.forget)).map Tree.id = (Forest.nodes f).map Tree.id := by
  rw [Forest.nodes_forget, List.map_map]
  exact congrArg (List.map · (Forest.nodes f)) (funext fun t => Tree.forget_id)

/-- What nodes remember plays no part in tidiness. -/
theorem Forest.tidy_map_forget : Forest.Tidy (f.map Tree.forget) ↔ f.Tidy := by
  constructor
  · rintro ⟨hnodup, hlinked⟩
    rw [Forest.ids_forget] at hnodup
    refine ⟨hnodup, fun t ht u hu => ?_⟩
    have hlink := hlinked t.forget (by rw [Forest.nodes_forget]; exact List.mem_map_of_mem ht)
      u.forget (by rw [Tree.forget_children]; exact List.mem_map_of_mem hu)
    rwa [Tree.forget_core, Tree.forget_id] at hlink
  · rintro ⟨hnodup, hlinked⟩
    rw [← Forest.ids_forget] at hnodup
    refine ⟨hnodup, fun t ht u hu => ?_⟩
    rw [Forest.nodes_forget] at ht
    obtain ⟨t', ht', rfl⟩ := List.mem_map.1 ht
    rw [Tree.forget_children] at hu
    obtain ⟨u', hu', rfl⟩ := List.mem_map.1 hu
    rw [Tree.forget_core, Tree.forget_id]
    exact hlinked t' ht' u' hu'

mutual
/-- Changes can be followed on the tree without memories. -/
theorem Tree.forget_touch {id : NodeId} {g k : Tree → Tree}
    (hg : ∀ u, (g u).forget = k u.forget) (t : Tree) :
    (t.touch id g).forget = t.forget.touch id k := by
  by_cases hid : t.id = id
  · rw [Tree.touch_self hid, Tree.touch_self (by rw [Tree.forget_id, hid]), Tree.forget_mapCore, hg]
  · match t with
    | .comment core text =>
      simp [Tree.forget, Tree.mapStatements, Tree.touch, show core.id ≠ id from hid]
    | .directive core statement =>
      simp [Tree.forget, Tree.mapStatements, Tree.touch, show core.id ≠ id from hid]
    | .block core statement children =>
      have hid' : (core.id == id) = false := by simpa [Tree.id, Tree.core] using hid
      have hinside : (Forest.touch id g children).map Tree.forget =
          Forest.touch id k (children.map Tree.forget) := Forest.forget_touch hg children
      have hany : (Forest.nodes (children.map Tree.forget)).any (·.id == id) =
          (Forest.nodes children).any (·.id == id) := by
        rw [Forest.nodes_forget, List.any_map]
        exact congrArg (List.any (Forest.nodes children)) (funext fun u => by simp)
      rw [Tree.forget_block, Tree.touch, Tree.touch, hid', hany]
      cases (Forest.nodes children).any (·.id == id) with
      | true => simp [Tree.forget_block, hinside]
      | false => simp [Tree.forget_block]

theorem Forest.forget_touch {id : NodeId} {g k : Tree → Tree}
    (hg : ∀ u, (g u).forget = k u.forget) (f : Forest) :
    (Forest.touch id g f).map Tree.forget = Forest.touch id k (f.map Tree.forget) := by
  match f with
  | [] => simp [Forest.touch]
  | t :: f =>
    rw [Forest.touch, List.map_cons, List.map_cons, Forest.touch, Tree.forget_touch hg t,
      Forest.forget_touch hg f]
end

theorem Tree.forget_remember (inside : Bool) : (t.remember inside).forget = t.forget := by
  cases t <;> simp [Tree.remember, Tree.forget, Tree.mapStatements, Statement.remember]

mutual
/-- Looking changes only what nodes remember. -/
theorem Tree.forget_list (blocks : List NodeId) (inForce : Bool) (t : Tree) :
    (t.list blocks inForce).forget = t.forget := by
  match t with
  | .comment core text => simp [Tree.list]
  | .directive core statement => simp [Tree.list]
  | .block core statement children =>
    have hinside := Forest.forget_listInside blocks
      (inForce && core.policy.isActive statement.name statement.parameters) children
    rw [Tree.list]
    split
    · rw [Tree.forget_block, Tree.forget_block, List.map_map, ← hinside]
      congr 1
      exact List.map_congr_left fun u _ => Tree.forget_remember _
    · rw [Tree.forget_block, Tree.forget_block, hinside]

theorem Forest.forget_listInside (blocks : List NodeId) (inForce : Bool) (f : Forest) :
    (Forest.listInside blocks inForce f).map Tree.forget = f.map Tree.forget := by
  match f with
  | [] => simp [Forest.listInside]
  | t :: f =>
    rw [Forest.listInside, List.map_cons, List.map_cons, Tree.forget_list blocks inForce t,
      Forest.forget_listInside blocks inForce f]
end

theorem Forest.forget_list (f : Forest) (blocks : List NodeId) :
    (f.list blocks).map Tree.forget = f.map Tree.forget := by
  rw [Forest.list, List.map_map]
  exact List.map_congr_left fun t _ => Tree.forget_list _ _ t

namespace Workspace.Tended

variable {w w' : Workspace} {r : Tree}

/-- Looking at nodes leaves an open document as it is. -/
theorem list (hw : w.Tended r) (blocks : List NodeId) :
    ∃ r', (w.list blocks).Tended r' ∧ r'.forget = r.forget := by
  refine ⟨r.list blocks (w.forest.enabled r), ⟨?_, ?_, ?_, ?_, fun t ht => ?_⟩,
    Tree.forget_list _ _ r⟩
  · exact List.mem_map_of_mem hw.mem
  · rw [← Tree.forget_id, Tree.forget_list, Tree.forget_id, hw.first]
  · rw [← Tree.forget_core, Tree.forget_list, Tree.forget_core, hw.top]
  · have htidy := Forest.tidy_map_forget.2 hw.tidy
    rw [← Forest.forget_list _ blocks] at htidy
    exact Forest.tidy_map_forget.1 htidy
  · have hid : t.id ∈ (Forest.nodes (w.forest.list blocks)).map Tree.id := List.mem_map_of_mem ht
    rw [← Forest.ids_forget, Forest.forget_list, Forest.ids_forget] at hid
    obtain ⟨u, hu, huid⟩ := List.mem_map.1 hid
    rw [← huid]
    exact hw.lt_next u hu

theorem find?_root (hw : w.Tended r) : w.forest.find? 0 = some r := by
  rw [← hw.first]
  exact hw.tidy.find?_eq (Forest.mem_nodes_of_mem hw.mem)

theorem node?_eq (hw : w.Tended r) (id : NodeId) : w.node? 0 id = r.nodes.find? (·.id == id) := by
  rw [Workspace.node?, hw.find?_root, Option.bind_some]

theorem linked (hw : w.Tended r) (ht : t ∈ r.nodes) : t.Linked := fun u hu =>
  hw.tidy.linked u ((Forest.nodes_sublist _ (hw.mem_nodes ht)).subset hu)

theorem find?_forget (r : Tree) (id : NodeId) :
    r.forget.nodes.find? (·.id == id) = (r.nodes.find? (·.id == id)).map Tree.forget := by
  rw [Tree.nodes_forget, List.find?_map]
  congr 2
  exact funext fun u => by simp

/-- Adding a node touches the block it is added to. -/
theorem addChild (hw : w.Tended r) (ht : t ∈ r.nodes) (hblock : t.isBlock = true)
    {content : NodeContent} {standing : Bool} {index : Nat} (hindex : index ≤ t.children.length) :
    Tended ⟨(w.forest.update t.id (Tree.withChildren fun children => children.insertIdx index
        (content.tree (w.childCore t) standing []))).markModified t.core, w.next + 1, w.journal⟩
      (r.touch t.id (Tree.withChildren fun children => children.insertIdx index
        (content.tree (w.childCore t) standing []))) := by
  have hnew := content.tree_core (w.childCore t) standing []
  have hempty := content.tree_children (w.childCore t) standing
  -- all that matters is that the new node is linked to its block and has nothing inside
  generalize content.tree (w.childCore t) standing [] = new at hnew hempty ⊢
  have hlinked : new.Linked := Tree.linked_iff.2 (by rw [hempty]; simp)
  have hids : new.nodes.map Tree.id = [w.next] := by
    rw [Tree.nodes_of_children_eq_nil hempty, List.map_singleton, Tree.id, hnew]
    rfl
  refine hw.change [] [w.next] ht (Tree.withChildren_core _)
    ((hw.linked ht).insertChild (by rw [hnew]; rfl) hlinked index) (by simp) ?_ (by simp) (by simp)
    (Nat.le_succ _)
  rw [← hids]
  exact Tree.ids_insertChild hblock hindex

/-- Deleting a child touches the block it is taken from. -/
theorem deleteChild (hw : w.Tended r) (ht : t ∈ r.nodes) (hu : u ∈ t.children) :
    Tended ⟨Forest.markModified (u :: w.forest.update t.id (Tree.withChildren fun children =>
        children.filter fun v => v.id != u.id)) t.core, w.next, w.journal⟩
      (r.touch t.id (Tree.withChildren fun children =>
        children.filter fun v => v.id != u.id)) := by
  refine hw.change [u] [] ht (Tree.withChildren_core _) ((hw.linked ht).filterChildren _) ?_ ?_
    .nil (by simp) (Nat.le_refl _)
  · intro v hv
    rw [List.mem_singleton.1 hv]
    exact (Tree.linked_iff.1 (hw.linked ht)).2 u hu
  · rw [Forest.nodes_cons, Forest.nodes_nil, List.append_nil, List.nil_append]
    exact Tree.ids_deleteChild (hw.tidy.nodup_nodes (hw.mem_nodes ht)) hu

/-- Setting parameters touches the node. -/
theorem setParameters (hw : w.Tended r) (ht : t ∈ r.nodes) (parameters : List String) :
    Tended ⟨(w.forest.mapStatements fun core statement =>
        if core.id == t.id then { statement with parameters } else statement).markModified t.core,
        w.next, w.journal⟩
      (r.touch t.id (Tree.mapStatement ({ · with parameters }))) := by
  rw [Forest.mapStatements_eq_update _ _ w.forest hw.tidy.nodup]
  refine hw.change [] [] ht (Tree.mapStatement_core _) ((hw.linked ht).mapStatement _) (by simp) ?_
    .nil (by simp) (Nat.le_refl _)
  rw [Tree.ids_mapStatement]
  exact .refl _

end Workspace.Tended

/-- What an edit that succeeds does to a sheet. -/
theorem Sheet.edit_cases {s s' : Sheet} {e : Edit} (h : s.edit e = some s') :
    (∃ blocks, e = .look blocks ∧ s' = s) ∨
    (∃ block content position b, e = .add block content position ∧ s.find? block = some b ∧
      b.isBlock = true ∧ s' = ⟨s.tree.touch block (Tree.withChildren fun children =>
        children.insertIdx (position.getD b.children.length)
          (content.tree (b.core.child s.next) true []).forget), s.next + 1⟩) ∨
    (∃ block child b, e = .delete block child ∧ s.find? block = some b ∧
      s' = ⟨s.tree.touch block
        (Tree.withChildren fun children => children.filter (·.id != child)), s.next⟩) ∨
    ∃ node parameters t, e = .setParameters node parameters ∧ s.find? node = some t ∧
      t.name ≠ "" ∧
      s' = ⟨s.tree.touch node (Tree.mapStatement ({ · with parameters })), s.next⟩ := by
  cases e with
  | look blocks => exact .inl ⟨blocks, rfl, (Option.some.inj h).symm⟩
  | add block content position =>
    rw [Sheet.edit] at h
    split at h
    · simp at h
    · rename_i b hb
      simp only at h
      split at h
      · rename_i hcond
        simp only [Bool.and_eq_true] at hcond
        exact .inr (.inl ⟨block, content, position, b, rfl, hb, hcond.1.1,
          (Option.some.inj h).symm⟩)
      · simp at h
  | delete block child =>
    rw [Sheet.edit] at h
    split at h
    · simp at h
    · rename_i b hb
      split at h
      · exact .inr (.inr (.inl ⟨block, child, b, rfl, hb, (Option.some.inj h).symm⟩))
      · simp at h
  | setParameters node parameters =>
    rw [Sheet.edit] at h
    split at h
    · simp at h
    · rename_i t ht
      split at h
      · simp at h
      · rename_i hname
        exact .inr (.inr (.inr ⟨node, parameters, t, rfl, ht, by simpa using hname,
          (Option.some.inj h).symm⟩))

/-- An edit only looks at nodes or leaves changes behind. -/
theorem Sheet.look_or_dirty {s s' : Sheet} {e : Edit} (h : s.edit e = some s') :
    (∃ blocks, e = .look blocks) ∨ s'.tree.core.dirty = true := by
  have hany : ∀ {id : NodeId} {b : Tree}, s.find? id = some b →
      s.tree.nodes.any (·.id == id) = true := by
    intro id b hb
    obtain ⟨hmem, hid⟩ := Tree.mem_of_find?_id hb
    exact List.any_eq_true.2 ⟨b, hmem, beq_iff_eq.2 hid⟩
  obtain ⟨blocks, rfl, -⟩ | ⟨block, content, position, b, -, hb, -, rfl⟩ |
    ⟨block, child, b, -, hb, rfl⟩ | ⟨node, parameters, b, -, hb, -, rfl⟩ := Sheet.edit_cases h
  · exact .inl ⟨blocks, rfl⟩
  · exact .inr (Tree.dirty_touch (hany hb))
  · exact .inr (Tree.dirty_touch (hany hb))
  · exact .inr (Tree.dirty_touch (hany hb))

/-- A node with a name is not the root of a document, which has none. -/
theorem Sheet.root_id_ne {s : Sheet} {t : Tree} {node : NodeId} (hroot : s.tree.name = "")
    (ht : s.find? node = some t) (hname : t.name ≠ "") : s.tree.id ≠ node := by
  rintro rfl
  rw [Sheet.find?, s.tree.nodes_eq, List.find?_cons_of_pos (by simp)] at ht
  exact hname (Option.some.inj ht ▸ hroot)

/-- What each edit of a run keeps, the run keeps. -/
theorem Sheet.kept_run {P : Sheet → Prop} {edits : List Edit} {s s' : Sheet}
    (hedits : ∀ e ∈ edits, ∀ m m', P m → m.edit e = some m' → P m') (hs : P s)
    (hrun : edits.foldlM Sheet.edit s = some s') : P s' := by
  induction edits generalizing s with
  | nil =>
    obtain rfl : s = s' := Option.some.inj hrun
    exact hs
  | cons e edits ih =>
    rw [List.foldlM_cons] at hrun
    obtain ⟨m, hedit, hrun⟩ := Option.bind_eq_some_iff.1 hrun
    rw [List.forall_mem_cons] at hedits
    exact ih hedits.2 (hedits.1 s m hs hedit) hrun

/-- Where two steps are related, so are two runs. -/
theorem rel_foldlM {α β γ : Type} {R : α → β → Prop} {f : α → γ → Option α} {g : β → γ → Option β}
    (hstep : ∀ {a b} (c : γ), R a b → Option.Rel R (f a c) (g b c)) {a : α} {b : β} (h : R a b)
    (cs : List γ) : Option.Rel R (cs.foldlM f a) (cs.foldlM g b) := by
  induction cs generalizing a b with
  | nil => exact .some h
  | cons c cs ih =>
    rw [List.foldlM_cons, List.foldlM_cons]
    have hrel := hstep c h
    generalize f a c = x at hrel ⊢
    generalize g b c = y at hrel ⊢
    cases hrel with
    | none => exact .none
    | some hab => exact ih hab

/-- The sheet is that of the document open in the workspace. -/
def Sheet.Follows (s : Sheet) (w : Workspace) : Prop :=
  ∃ r, w.Tended r ∧ s = ⟨r.forget, w.next⟩

namespace Sheet.Follows

variable {w w' : Workspace} {s : Sheet} {r : Tree}

/-- A node that is added in the workspace is added on the sheet. -/
theorem addChild (hw : w.Tended r) (ht : t ∈ r.nodes) (hblock : t.isBlock = true)
    {content : NodeContent} {index : Nat} (hindex : index ≤ t.children.length) :
    Follows ⟨r.forget.touch t.id (Tree.withChildren fun children => children.insertIdx index
        (content.tree (t.core.child w.next) true []).forget), w.next + 1⟩
      ⟨(w.forest.update t.id (Tree.withChildren fun children => children.insertIdx index
        (content.tree (w.childCore t) (w.enabledInside t) []))).markModified t.core, w.next + 1,
        w.journal⟩ := by
  refine ⟨_, hw.addChild ht hblock hindex, ?_⟩
  have hnew : (content.tree (w.childCore t) (w.enabledInside t) []).forget =
      (content.tree (t.core.child w.next) true []).forget := content.forget_tree ..
  rw [Tree.forget_touch (Tree.forget_withChildren fun f => ?_)]
  rw [List.map_insertIdx, hnew]

/-- A child that is deleted in the workspace is deleted on the sheet. -/
theorem deleteChild (hw : w.Tended r) (ht : t ∈ r.nodes) (hu : u ∈ t.children) :
    Follows ⟨r.forget.touch t.id (Tree.withChildren fun children =>
        children.filter fun v => v.id != u.id), w.next⟩
      ⟨Forest.markModified (u :: w.forest.update t.id (Tree.withChildren fun children =>
        children.filter fun v => v.id != u.id)) t.core, w.next, w.journal⟩ := by
  refine ⟨_, hw.deleteChild ht hu, ?_⟩
  rw [Tree.forget_touch (Tree.forget_withChildren fun f => ?_)]
  rw [List.filter_map]
  exact congrArg (List.map Tree.forget) (List.filter_congr fun v _ => by simp)

/-- Parameters that are set in the workspace are set on the sheet. -/
theorem setParameters (hw : w.Tended r) (ht : t ∈ r.nodes) (parameters : List String) :
    Follows ⟨r.forget.touch t.id (Tree.mapStatement ({ · with parameters })), w.next⟩
      ⟨(w.forest.mapStatements fun core statement =>
        if core.id == t.id then { statement with parameters } else statement).markModified t.core,
        w.next, w.journal⟩ := by
  refine ⟨_, hw.setParameters ht parameters, ?_⟩
  rw [Tree.forget_touch (Tree.forget_mapStatement parameters)]

/-- An edit succeeds in the workspace when it does on the sheet, and with the same effect. -/
theorem edit (h : s.Follows w) (e : Edit) :
    Option.Rel (fun w' s' => Follows s' w') (w.edit 0 e) (s.edit e) := by
  obtain ⟨r, hw, rfl⟩ := h
  have hfind := Workspace.Tended.find?_forget r
  cases e with
  | look blocks =>
    obtain ⟨r', hw', hr'⟩ := hw.list blocks
    exact .some ⟨r', hw', by rw [hr']; rfl⟩
  | add block content position =>
    rw [Workspace.edit, Sheet.edit, hw.node?_eq, Sheet.find?, hfind]
    cases hnode : r.nodes.find? (·.id == block) with
    | none => exact .none
    | some t =>
      obtain ⟨ht, rfl⟩ := Tree.mem_of_find?_id hnode
      -- the checks see the same block with and without what it remembers
      have hlength : t.forget.children.length = t.children.length := by
        rw [Tree.forget_children, List.length_map]
      simp only [Option.map_some, Tree.forget_isBlock, Tree.forget_core, hlength]
      by_cases hblock : t.isBlock = true
      swap
      · simp [hblock]
      by_cases hname : content.name? = some ""
      · simp [hblock, hname, Workspace.addChild, Except.toOption]
      by_cases hindex : position.getD t.children.length ≤ t.children.length
      swap
      · have hlt : t.children.length < position.getD t.children.length := by omega
        simp [hindex, hname, hlt, Workspace.addChild, Except.toOption]
      have hname' : (content.name? == some "") = false := by simpa using hname
      have hnot : ¬ t.children.length < position.getD t.children.length := by omega
      rw [if_pos hblock, if_pos (by simp [hblock, hname, hindex]), Workspace.addChild, hname',
        if_neg (by simp)]
      simp only [if_neg hnot]
      exact .some (addChild hw ht hblock hindex)
  | delete block child =>
    rw [Workspace.edit, Sheet.edit, hw.node?_eq, Sheet.find?, hfind]
    cases hnode : r.nodes.find? (·.id == block) with
    | none => exact .none
    | some t =>
      obtain ⟨ht, rfl⟩ := Tree.mem_of_find?_id hnode
      have hany : t.forget.children.any (·.id == child) = t.children.any (·.id == child) := by
        rw [Tree.forget_children, List.any_map]
        exact congrArg (List.any t.children) (funext fun u => by simp)
      simp only [Option.map_some, hany, Workspace.deleteChild]
      cases hchild : List.find? (fun u => u.id == child) t.children with
      | none =>
        have hnone : t.children.any (·.id == child) = false := by
          rw [List.any_eq_false]
          exact List.find?_eq_none.1 hchild
        simp [hnone, Except.toOption]
      | some u =>
        obtain ⟨hu, rfl⟩ := Tree.mem_of_find?_id hchild
        have hsome : t.children.any (·.id == u.id) = true :=
          List.any_eq_true.2 ⟨u, hu, by simp⟩
        simp only [hsome, Except.toOption, if_true]
        exact .some (deleteChild hw ht hu)
  | setParameters node parameters =>
    rw [Workspace.edit, Sheet.edit, hw.node?_eq, Sheet.find?, hfind]
    cases hnode : r.nodes.find? (·.id == node) with
    | none => exact .none
    | some t =>
      obtain ⟨ht, rfl⟩ := Tree.mem_of_find?_id hnode
      simp only [Option.map_some, Workspace.setParameters, Tree.forget_name]
      split
      · exact .none
      · exact .some (setParameters hw ht parameters)

/-- A run of edits succeeds in the workspace when it does on the sheet, and with the same effect. -/
theorem run (h : s.Follows w) (edits : List Edit) :
    Option.Rel (fun w' s' => Follows s' w') (edits.foldlM (Workspace.edit 0) w)
      (edits.foldlM Sheet.edit s) :=
  rel_foldlM (R := fun w' s' => Follows s' w') (fun e hfollows => hfollows.edit e) h edits

end Sheet.Follows

/-! ## Opening a document -/

theorem Forest.ofFragments_cons (k : Kinship) (ancestor next : NodeId) (f : Fragment)
    (fs : List Fragment) :
    Forest.ofFragments k ancestor next (f :: fs) =
      ((Tree.ofFragment k ancestor next f).1.toList ++
        (Forest.ofFragments k ancestor (Tree.ofFragment k ancestor next f).2 fs).1,
        (Forest.ofFragments k ancestor (Tree.ofFragment k ancestor next f).2 fs).2) := by
  rw [Forest.ofFragments]

mutual
/-- The nodes of fragments are numbered one after the other. -/
theorem Tree.ids_ofFragment (k : Kinship) (ancestor next : NodeId) (f : Fragment) :
    ∃ n, (Tree.ofFragment k ancestor next f).2 = next + n ∧
      (Forest.nodes (Tree.ofFragment k ancestor next f).1.toList).map Tree.id =
        List.range' next n := by
  match f with
  | ⟨source, .document, span, leading, header, trailing, footer, children⟩ =>
    exact ⟨0, rfl, by simp [Tree.ofFragment]⟩
  | ⟨source, .comment text, span, leading, header, trailing, footer, children⟩ =>
    refine ⟨1, rfl, ?_⟩
    simp [Tree.ofFragment, Tree.nodes, Tree.id, Tree.core, Kinship.core]
  | ⟨source, .directive name arguments, span, leading, header, trailing, footer, children⟩ =>
    refine ⟨1, rfl, ?_⟩
    simp [Tree.ofFragment, Tree.nodes, Tree.id, Tree.core, Kinship.core]
  | ⟨source, .block name arguments, span, leading, header, trailing, footer, children⟩ =>
    -- the block comes first, and what is inside is numbered right after it
    obtain ⟨n, hnext, hids⟩ := Forest.ids_ofFragments k next (next + 1) children
    refine ⟨n + 1, ?_, ?_⟩
    · rw [Tree.ofFragment, hnext, Nat.add_assoc, Nat.add_comm 1]
    · simp only [Tree.ofFragment, Option.toList_some, Forest.nodes_cons, Forest.nodes_nil,
        List.append_nil, Tree.nodes, List.map_cons, hids, List.range'_succ]
      rfl

theorem Forest.ids_ofFragments (k : Kinship) (ancestor next : NodeId) (fs : List Fragment) :
    ∃ n, (Forest.ofFragments k ancestor next fs).2 = next + n ∧
      (Forest.nodes (Forest.ofFragments k ancestor next fs).1).map Tree.id =
        List.range' next n := by
  match fs with
  | [] => exact ⟨0, rfl, by simp [Forest.ofFragments]⟩
  | f :: fs =>
    obtain ⟨n, hnext, hids⟩ := Tree.ids_ofFragment k ancestor next f
    obtain ⟨m, hnext', hids'⟩ := Forest.ids_ofFragments k ancestor (next + n) fs
    refine ⟨n + m, ?_, ?_⟩
    · rw [Forest.ofFragments_cons, hnext, hnext', Nat.add_assoc]
    · rw [Forest.ofFragments_cons, hnext, Forest.nodes_append, List.map_append, hids, hids',
        List.range'_append_1]
end

mutual
theorem Tree.linked_ofFragment (k : Kinship) (ancestor next : NodeId) (f : Fragment) :
    ∀ t ∈ (Tree.ofFragment k ancestor next f).1, t.Linked ∧ t.core.ancestor = some ancestor := by
  match f with
  | ⟨source, .document, span, leading, header, trailing, footer, children⟩ =>
    simp [Tree.ofFragment]
  | ⟨source, .comment text, span, leading, header, trailing, footer, children⟩ =>
    intro t ht
    obtain rfl := Option.some.inj ht
    exact ⟨Tree.linked_iff.2 (by simp [Tree.children]), rfl⟩
  | ⟨source, .directive name arguments, span, leading, header, trailing, footer, children⟩ =>
    intro t ht
    obtain rfl := Option.some.inj ht
    exact ⟨Tree.linked_iff.2 (by simp [Tree.children]), rfl⟩
  | ⟨source, .block name arguments, span, leading, header, trailing, footer, children⟩ =>
    intro t ht
    have hinside := Forest.linked_ofFragments k next (next + 1) children
    rw [Tree.ofFragment] at ht
    obtain rfl := Option.some.inj ht
    exact ⟨Tree.linked_iff.2 ⟨fun v hv => (hinside v hv).2, fun v hv => (hinside v hv).1⟩, rfl⟩

theorem Forest.linked_ofFragments (k : Kinship) (ancestor next : NodeId) (fs : List Fragment) :
    ∀ t ∈ (Forest.ofFragments k ancestor next fs).1,
      t.Linked ∧ t.core.ancestor = some ancestor := by
  match fs with
  | [] => simp [Forest.ofFragments]
  | f :: fs =>
    intro t ht
    rw [Forest.ofFragments] at ht
    rcases List.mem_append.1 ht with ht | ht
    · exact Tree.linked_ofFragment k ancestor next f t (by simpa using ht)
    · exact Forest.linked_ofFragments k ancestor _ fs t ht
end

mutual
/-- Parsed nodes were never listed. -/
theorem Tree.forget_ofFragment (k : Kinship) (ancestor next : NodeId) (f : Fragment) :
    (Tree.ofFragment k ancestor next f).1.map Tree.forget =
      (Tree.ofFragment k ancestor next f).1 := by
  match f with
  | ⟨source, .document, span, leading, header, trailing, footer, children⟩ =>
    simp [Tree.ofFragment]
  | ⟨source, .comment text, span, leading, header, trailing, footer, children⟩ =>
    simp [Tree.ofFragment, Tree.forget, Tree.mapStatements]
  | ⟨source, .directive name arguments, span, leading, header, trailing, footer, children⟩ =>
    simp [Tree.ofFragment, Tree.forget, Tree.mapStatements]
  | ⟨source, .block name arguments, span, leading, header, trailing, footer, children⟩ =>
    simp [Tree.ofFragment, Tree.forget_block, Forest.forget_ofFragments k next (next + 1) children]

theorem Forest.forget_ofFragments (k : Kinship) (ancestor next : NodeId) (fs : List Fragment) :
    (Forest.ofFragments k ancestor next fs).1.map Tree.forget =
      (Forest.ofFragments k ancestor next fs).1 := by
  match fs with
  | [] => simp [Forest.ofFragments]
  | f :: fs =>
    have hfirst := Tree.forget_ofFragment k ancestor next f
    rw [Forest.ofFragments_cons, List.map_append, Forest.forget_ofFragments k ancestor _ fs,
      ← Option.toList_map, hfirst]
end

/-- The root of a document that is opened next, and the workspace with it. -/
def Workspace.opened (w : Workspace) (document : Fragment) (policy : Policy) : Tree × Workspace :=
  let made := Forest.ofFragments ⟨policy, w.next⟩ w.next (w.next + 1) document.children
  let root : Tree := .block
    { id := w.next, ancestor := none, path := document.source.path, origin := .parsed document,
      policy, journal := w.next, dirty := false, modified := false }
    ⟨"", [], some true⟩ made.1
  (root, ⟨root :: w.forest, made.2, w.journal⟩)

/-- A document can be opened when its file has a name. -/
theorem Workspace.openDocument_eq (w : Workspace) (document : Fragment) (policy : Policy) :
    w.openDocument document policy =
      if document.source.path.text.isEmpty then .error (.invalidConstruction .noFile)
      else .ok (w.opened document policy) := rfl

theorem Workspace.openDocument_of_path {document : Fragment} (h : document.source.path.text ≠ "")
    (w : Workspace) (policy : Policy) :
    w.openDocument document policy = .ok (w.opened document policy) := by
  rw [openDocument_eq, if_neg]
  rwa [String.isEmpty_iff]

theorem Workspace.eq_opened {w w' : Workspace} {document : Fragment} {policy : Policy} {t : Tree}
    (h : w.openDocument document policy = .ok (t, w')) : (t, w') = w.opened document policy := by
  rw [Workspace.openDocument_eq] at h
  split at h
  · simp at h
  · exact (Except.ok.inj h).symm

/-- What the root block of a document has that was opened first. -/
def Core.opened (document : Fragment) (policy : Policy) : Core where
  id := 0
  ancestor := none
  path := document.source.path
  origin := .parsed document
  policy := policy
  journal := 0
  dirty := false
  modified := false

/-- The nodes of a document that was opened first, and the next free number. -/
def Sheet.opened (document : Fragment) (policy : Policy) : Sheet :=
  ⟨.block (Core.opened document policy) ⟨"", [], none⟩
    (Forest.ofFragments ⟨policy, 0⟩ 0 1 document.children).1,
    (Forest.ofFragments ⟨policy, 0⟩ 0 1 document.children).2⟩

/-- An open document starts with its sheet. -/
theorem Sheet.follows_opened {document : Fragment} {policy : Policy} {t : Tree} {w : Workspace}
    (h : Workspace.empty.openDocument document policy = .ok (t, w)) :
    w.Tended t ∧ Sheet.opened document policy = ⟨t.forget, w.next⟩ := by
  have hopen : (t, w) = (Tree.block (Core.opened document policy) ⟨"", [], some true⟩
      (Forest.ofFragments ⟨policy, 0⟩ 0 1 document.children).1,
      ⟨[Tree.block (Core.opened document policy) ⟨"", [], some true⟩
        (Forest.ofFragments ⟨policy, 0⟩ 0 1 document.children).1],
        (Forest.ofFragments ⟨policy, 0⟩ 0 1 document.children).2, []⟩) :=
    Workspace.eq_opened h
  obtain ⟨rfl, rfl⟩ := Prod.mk.inj hopen
  obtain ⟨n, hnext, hids⟩ := Forest.ids_ofFragments ⟨policy, 0⟩ 0 1 document.children
  have hlinked := Forest.linked_ofFragments ⟨policy, 0⟩ 0 1 document.children
  -- the numbers are all those from zero on, each given once
  have hids' : (Forest.nodes [Tree.block (Core.opened document policy) ⟨"", [], some true⟩
      (Forest.ofFragments ⟨policy, 0⟩ 0 1 document.children).1]).map Tree.id =
      List.range' 0 (n + 1) := by
    rw [Forest.nodes_cons, Forest.nodes_nil, List.append_nil, Tree.nodes, List.map_cons, hids,
      List.range'_succ]
    rfl
  refine ⟨⟨by simp, rfl, rfl, ?_, fun u hu => ?_⟩, ?_⟩
  · rw [Forest.tidy_iff, hids']
    refine ⟨List.nodup_range', fun u hu => ?_⟩
    rw [List.mem_singleton.1 hu, Tree.linked_iff]
    exact ⟨fun v hv => (hlinked v hv).2, fun v hv => (hlinked v hv).1⟩
  · have hid : u.id ∈ List.range' 0 (n + 1) := hids' ▸ List.mem_map_of_mem hu
    rw [hnext]
    simpa [Nat.add_comm] using hid
  · rw [Sheet.opened, Tree.forget_block, Forest.forget_ofFragments]

/-! ## Editing a file -/

/-- The root block of a file after some edits, and the workspace it is open in, if the file can be
read and all edits succeed. -/
def editFile (source : SourceFile) (policy : Policy) (edits : List Edit) :
    Option (Tree × Workspace) := do
  let document ← (Fragment.read source).toOption
  let (root, w) ← (Workspace.empty.openDocument document policy).toOption
  let w ← edits.foldlM (Workspace.edit root.id) w
  let root ← w.forest.find? root.id
  return (root, w)

theorem eq_ok_of_toOption {ε α : Type} {x : Except ε α} {a : α} (h : x.toOption = some a) :
    x = .ok a := by
  cases x with
  | error e => simp [Except.toOption] at h
  | ok b => rw [← Option.some.inj h]

/-- A file that was edited is followed by its sheet. -/
theorem exists_sheet_of_editFile {source : SourceFile} {policy : Policy} {edits : List Edit}
    {r : Tree} {w : Workspace} (h : editFile source policy edits = some (r, w)) :
    ∃ document s, Fragment.read source = .ok document ∧
      edits.foldlM Sheet.edit (Sheet.opened document policy) = some s ∧ w.Tended r ∧
      s = ⟨r.forget, w.next⟩ := by
  unfold editFile at h
  obtain ⟨document, hread, h⟩ := Option.bind_eq_some_iff.1 h
  obtain ⟨⟨root, w₀⟩, hopen, h⟩ := Option.bind_eq_some_iff.1 h
  obtain ⟨w', hrun, h⟩ := Option.bind_eq_some_iff.1 h
  obtain ⟨r', hr', h⟩ := Option.bind_eq_some_iff.1 h
  obtain ⟨rfl, rfl⟩ := Prod.mk.inj (Option.some.inj h)
  obtain ⟨htended, hsheet⟩ := Sheet.follows_opened (eq_ok_of_toOption hopen)
  have hfollows : (Sheet.opened document policy).Follows w₀ := ⟨root, htended, hsheet⟩
  simp only [htended.first] at hrun hr'
  -- the run of the edits succeeds in the workspace, so it does on the sheet
  have hrel := hfollows.run edits
  rw [hrun] at hrel
  cases hs : edits.foldlM Sheet.edit (Sheet.opened document policy) with
  | none =>
    rw [hs] at hrel
    cases hrel
  | some s =>
    rw [hs] at hrel
    cases hrel with
    | some hfollows' =>
      obtain ⟨r'', htended', rfl⟩ := hfollows'
      obtain rfl : r'' = r' := by
        have hroot := htended'.find?_root
        rw [hr'] at hroot
        exact (Option.some.inj hroot).symm
      exact ⟨document, _, eq_ok_of_toOption hread, hs, htended', rfl⟩

/-- Where the sheet of a file that was just opened can be edited, so can the file. -/
theorem exists_editFile {source : SourceFile} {policy : Policy} {e : Edit} {r : Tree}
    {w : Workspace} {s : Sheet} (h : editFile source policy [] = some (r, w))
    (hedit : Sheet.edit ⟨r.forget, w.next⟩ e = some s) :
    ∃ r' w', editFile source policy [e] = some (r', w') ∧ s = ⟨r'.forget, w'.next⟩ := by
  unfold editFile at h
  obtain ⟨document, hread, h⟩ := Option.bind_eq_some_iff.1 h
  obtain ⟨⟨root, w₀⟩, hopen, h⟩ := Option.bind_eq_some_iff.1 h
  obtain ⟨w₁, hrun, h⟩ := Option.bind_eq_some_iff.1 h
  obtain ⟨r₁, hr₁, h⟩ := Option.bind_eq_some_iff.1 h
  obtain ⟨rfl, rfl⟩ := Prod.mk.inj (Option.some.inj h)
  obtain rfl : w₀ = w₁ := Option.some.inj hrun
  obtain ⟨htended, hsheet⟩ := Sheet.follows_opened (eq_ok_of_toOption hopen)
  simp only [htended.first] at hr₁
  obtain rfl := Option.some.inj (htended.find?_root.symm.trans hr₁)
  -- the edit succeeds on the sheet, so it does in the workspace
  have hfollows : Sheet.Follows ⟨root.forget, w₀.next⟩ w₀ := ⟨root, htended, rfl⟩
  have hrel := hfollows.edit e
  rw [hedit] at hrel
  cases hw : w₀.edit 0 e with
  | none =>
    rw [hw] at hrel
    cases hrel
  | some w' =>
    rw [hw] at hrel
    cases hrel with
    | some hfollows' =>
      obtain ⟨r', htended', rfl⟩ := hfollows'
      refine ⟨r', w', ?_, rfl⟩
      simp [editFile, hread, hopen, htended.first, hw, htended'.find?_root]

end HttpdConf
