import HttpdConf.Proofs.Saves

/-!
# Runs of operations

A workspace goes on by operations: nodes are made, edited, saved and cleaned, files are handed to a
writer that may fail, and what nobody holds is swept away. Each operation has one of a few effects
on the forest, and what all effects keep holds in every workspace that a run of operations leads to.

## Main definitions

* `Operation`, `Workspace.perform`, `Workspace.run`: calls on live nodes
* `Workspace.Effect`: what an operation can do
* `Workspace.Sound`: numbers are unique and grow, and children are linked to their blocks

## Main results

* `Workspace.effect_perform`: every operation has an effect
* `Workspace.Sound.effect`, `Workspace.Sound.run`: effects and runs keep a workspace sound
-/

namespace HttpdConf

/-- A call on live nodes: a node is made, a node inside a live one is edited or listed, a checkpoint
is recorded, files are handed to a writer in some state, changes are forgotten, and what nobody
holds goes. -/
inductive Operation : Type 1 where
  | construct (blueprint : Blueprint) (content : NodeContent) (standing : Bool)
  | edit (root : NodeId) (e : Edit)
  | save (node : NodeId) (message : String)
  | write {σ : Type} (node : NodeId) (writer : Writer (StateM σ)) (state : σ)
  | markClean (node : NodeId)
  | sweep (held : List NodeId)

/-- The node that an edit is aimed at. -/
def Edit.target? : Edit → Option NodeId
  | .add block _ _ => some block
  | .delete block _ => some block
  | .setParameters node _ => some node
  | .look _ => none

/-- The node whose content the operation changes. -/
def Operation.target? : Operation → Option NodeId
  | .edit _ e => e.target?
  | _ => none

namespace Workspace

/-- The workspace after an operation. One that fails or has no live node to be called on leaves the
workspace as it is, except that a write may fail after it listed nodes. -/
def perform (w : Workspace) : Operation → Workspace
  | .construct blueprint content standing =>
    if blueprint.ancestor.all fun id => (w.forest.find? id).any Tree.isBlock then
      ((w.construct blueprint content standing).toOption.map Prod.snd).getD w
    else w
  | .edit root e => (w.edit root e).getD w
  | .save node message => ((w.forest.find? node).map fun t => (w.save t message).2).getD w
  | .write node writer state =>
    ((w.forest.find? node).map fun t => (Id.run ((w.writeUnsaved writer t).run state)).1.2).getD w
  | .markClean node => ((w.forest.find? node).map w.markClean).getD w
  | .sweep held => { w with forest := w.forest.sweep held }

/-- The workspace after some operations. -/
def run (w : Workspace) (operations : List Operation) : Workspace :=
  operations.foldl perform w

/-! ## Effects -/

/-- How an edit changes a node: what becomes of it, which trees are taken out, and the next free
number. -/
inductive Alters (w : Workspace) (t : Tree) : (Tree → Tree) → Forest → NodeId → Prop
  | add {content : NodeContent} {standing : Bool} {index : Nat} (hblock : t.isBlock = true)
      (hindex : index ≤ t.children.length) :
      Alters w t (Tree.withChildren fun children => children.insertIdx index
        (content.tree (w.childCore t) standing [])) [] (w.next + 1)
  | delete {u : Tree} (hu : u ∈ t.children) :
      Alters w t (Tree.withChildren fun children => children.filter fun v => v.id != u.id) [u]
        w.next
  | setParameters (parameters : List String) :
      Alters w t (Tree.mapStatement ({ · with parameters })) [] w.next

/-- What an operation can do to a workspace; the number is that of the node whose content is
changed. -/
inductive Effect (w : Workspace) : Option NodeId → Workspace → Prop
  | record (journal : List (Nat × Checkpoint)) : Effect w none { w with journal }
  | list (blocks : List NodeId) : Effect w none (w.list blocks)
  | sweep (held : List NodeId) : Effect w none { w with forest := w.forest.sweep held }
  | construct {t : Tree} (kin : Kinship) (fragments : List Fragment) (hid : t.id = w.next)
      (hancestor : ∀ id ∈ t.core.ancestor, ∃ u ∈ Forest.nodes w.forest, u.id = id)
      (hflags : t.core.modified = t.core.dirty)
      (hchildren : t.children = (Forest.ofFragments kin w.next (w.next + 1) fragments).1) :
      Effect w none
        ⟨if t.core.dirty then Forest.markDirtyAbove (t :: w.forest) t.core else t :: w.forest,
          (Forest.ofFragments kin w.next (w.next + 1) fragments).2, w.journal⟩
  | change {t : Tree} {g : Tree → Tree} {loose : Forest} {next : NodeId}
      (ht : t ∈ Forest.nodes w.forest) (h : w.Alters t g loose next) :
      Effect w (some t.id)
        ⟨Forest.markModified (loose ++ w.forest.update t.id g) t.core, next, w.journal⟩
  | markClean (t : Tree) : Effect w none (w.markClean t)
  | settle (blocks : List NodeId) (root : NodeId) (files : List Path) :
      Effect w none ⟨(w.forest.list blocks).update root (Tree.settle files), w.next, w.journal⟩

end Workspace

variable {w w' : Workspace} {t u : Tree} {f : Forest} {id : NodeId} {target : Option NodeId}

namespace Workspace

theorem effect_self (w : Workspace) : w.Effect none w := .record w.journal

/-- A new node is the first tree of the forest. What has no parsed text inside is made from no
fragments. -/
theorem construct_cases {b : Blueprint} {content : NodeContent} {standing : Bool}
    (h : w.construct b content standing = .ok (t, w')) :
    ∃ kin fragments, t.id = w.next ∧ t.core.ancestor = b.ancestor ∧ t.core.dirty = b.dirty ∧
      t.core.modified = b.dirty ∧
      t.children = (Forest.ofFragments kin w.next (w.next + 1) fragments).1 ∧
      w' = ⟨if b.dirty then Forest.markDirtyAbove (t :: w.forest) t.core else t :: w.forest,
        (Forest.ofFragments kin w.next (w.next + 1) fragments).2, w.journal⟩ := by
  unfold Workspace.construct at h
  split at h
  · simp at h
  · rename_i origin _
    simp only at h
    split at h
    · simp at h
    · cases content with
      | comment text =>
        obtain ⟨rfl, rfl⟩ := Prod.mk.inj (Except.ok.inj h)
        exact ⟨⟨Policy.default, 0⟩, [], rfl, rfl, rfl, rfl, rfl, rfl⟩
      | directive name parameters =>
        obtain ⟨rfl, rfl⟩ := Prod.mk.inj (Except.ok.inj h)
        exact ⟨⟨Policy.default, 0⟩, [], rfl, rfl, rfl, rfl, rfl, rfl⟩
      | block name parameters =>
        by_cases hsynthetic : origin.synthetic = true
        · simp only [hsynthetic, if_true] at h
          obtain ⟨rfl, rfl⟩ := Prod.mk.inj (Except.ok.inj h)
          exact ⟨⟨Policy.default, 0⟩, [], rfl, rfl, rfl, rfl, rfl, rfl⟩
        · simp only [hsynthetic] at h
          obtain ⟨rfl, rfl⟩ := Prod.mk.inj (Except.ok.inj h)
          exact ⟨_, origin.fragment.children, rfl, rfl, rfl, rfl, rfl, rfl⟩

/-- A write lists nodes, and settles the tree of a root when all files were taken. -/
theorem effect_writeUnsaved {σ : Type} (writer : Writer (StateM σ)) (state : σ) (t : Tree) :
    w.Effect none (Id.run ((w.writeUnsaved writer t).run state)).1.2 := by
  unfold Workspace.writeUnsaved
  simp only
  split
  · exact .list _
  · split
    · exact .list _
    · simp only [StateT.run_bind, Id.run_bind]
      split
      · exact .list _
      · exact .settle _ _ _

/-- A node that is added goes to a place among the children of the block. -/
theorem addChild_cases {new : Tree} {content : NodeContent} {position : Option Nat}
    (h : w.addChild t content position = .ok (new, w')) :
    ∃ index, position.getD t.children.length = index ∧ index ≤ t.children.length ∧
      new = content.tree (w.childCore t) (w.enabledInside t) [] ∧
      w' = ⟨Forest.markModified (w.forest.update t.id (Tree.withChildren fun children =>
        children.insertIdx index new)) t.core, w.next + 1, w.journal⟩ := by
  unfold Workspace.addChild at h
  split at h
  · simp at h
  · simp only at h
    split at h
    · simp at h
    · rename_i hindex
      obtain ⟨rfl, rfl⟩ := Prod.mk.inj (Except.ok.inj h)
      exact ⟨_, rfl, Nat.le_of_not_lt hindex, rfl, rfl⟩

/-- A node that is deleted is a child of the block, and stays alive outside of it. -/
theorem deleteChild_cases {child : NodeId} (h : w.deleteChild t child = .ok w') :
    ∃ u ∈ t.children, u.id = child ∧
      w' = ⟨Forest.markModified ([u] ++ w.forest.update t.id (Tree.withChildren fun children =>
        children.filter fun v => v.id != child)) t.core, w.next, w.journal⟩ := by
  unfold Workspace.deleteChild at h
  split at h
  · simp at h
  · rename_i u hchild
    obtain ⟨hu, hid⟩ := Tree.mem_of_find?_id hchild
    exact ⟨u, hu, hid, (Except.ok.inj h).symm⟩

theorem effect_construct {b : Blueprint} {content : NodeContent} {standing : Bool}
    (hancestor : ∀ id ∈ b.ancestor, ∃ u ∈ Forest.nodes w.forest, u.id = id)
    (h : w.construct b content standing = .ok (t, w')) : w.Effect none w' := by
  obtain ⟨kin, fragments, hid, hlink, hdirty, hmodified, hchildren, rfl⟩ := construct_cases h
  have heffect := Effect.construct (w := w) kin fragments hid (hlink ▸ hancestor)
    (hmodified.trans hdirty.symm) hchildren
  rwa [hdirty] at heffect

theorem effect_addChild {new : Tree} {content : NodeContent} {position : Option Nat}
    (ht : t ∈ Forest.nodes w.forest) (hblock : t.isBlock = true)
    (h : w.addChild t content position = .ok (new, w')) : w.Effect (some t.id) w' := by
  obtain ⟨index, -, hindex, rfl, rfl⟩ := addChild_cases h
  exact .change ht (.add hblock hindex)

theorem effect_deleteChild {child : NodeId} (ht : t ∈ Forest.nodes w.forest)
    (h : w.deleteChild t child = .ok w') : w.Effect (some t.id) w' := by
  obtain ⟨u, hu, rfl, rfl⟩ := deleteChild_cases h
  exact .change ht (.delete hu)

theorem effect_setParameters {parameters : List String} (hw : w.forest.Tidy)
    (ht : t ∈ Forest.nodes w.forest) (h : w.setParameters t parameters = .ok w') :
    w.Effect (some t.id) w' := by
  rw [Workspace.setParameters] at h
  split at h
  · simp at h
  · obtain rfl := Except.ok.inj h
    rw [Forest.mapStatements_eq_update _ _ w.forest hw.nodup]
    exact .change ht (.setParameters parameters)

/-- An edit that succeeds has an effect on its target. -/
theorem effect_edit {root : NodeId} {e : Edit} (hw : w.forest.Tidy)
    (h : w.edit root e = some w') : w.Effect e.target? w' := by
  have hnode : ∀ {id : NodeId} {t : Tree}, w.node? root id = some t →
      t ∈ Forest.nodes w.forest ∧ t.id = id := by
    intro id t hfind
    obtain ⟨r, hr, hfind⟩ := Option.bind_eq_some_iff.1 hfind
    obtain ⟨ht, hid⟩ := Tree.mem_of_find?_id hfind
    exact ⟨(Forest.nodes_sublist _ (Forest.mem_nodes_of_find? hr).1).subset ht, hid⟩
  cases e with
  | look blocks =>
    obtain rfl := Option.some.inj h
    exact .list blocks
  | add block content position =>
    rw [Workspace.edit] at h
    split at h
    · simp at h
    · rename_i t hfind
      obtain ⟨ht, rfl⟩ := hnode hfind
      split at h
      · rename_i hblock
        obtain ⟨⟨u, w''⟩, hadd, rfl⟩ := Option.map_eq_some_iff.1 h
        exact effect_addChild ht hblock (eq_ok_of_toOption hadd)
      · simp at h
  | delete block child =>
    rw [Workspace.edit] at h
    split at h
    · simp at h
    · rename_i t hfind
      obtain ⟨ht, rfl⟩ := hnode hfind
      exact effect_deleteChild ht (eq_ok_of_toOption h)
  | setParameters node parameters =>
    rw [Workspace.edit] at h
    split at h
    · simp at h
    · rename_i t hfind
      obtain ⟨ht, rfl⟩ := hnode hfind
      exact effect_setParameters hw ht (eq_ok_of_toOption h)

/-- Every operation has an effect, and changes the content of its target only. -/
theorem effect_perform (hw : w.forest.Tidy) (op : Operation) :
    w.Effect none (w.perform op) ∨ w.Effect op.target? (w.perform op) := by
  cases op with
  | construct b content standing =>
    refine .inl ?_
    rw [perform]
    split
    · rename_i hancestor
      cases hmake : w.construct b content standing with
      | error e => exact effect_self w
      | ok made =>
        refine effect_construct (fun id hid => ?_) hmake
        -- an ancestor has to be alive
        rw [Option.mem_def.1 hid, Option.all_some] at hancestor
        cases hfind : w.forest.find? id with
        | none => simp [hfind] at hancestor
        | some u => exact ⟨u, Forest.mem_nodes_of_find? hfind⟩
    · exact effect_self w
  | edit root e =>
    rw [perform]
    cases hedit : w.edit root e with
    | none => exact .inl (effect_self w)
    | some w' => exact .inr (effect_edit hw hedit)
  | save node message =>
    refine .inl ?_
    rw [perform]
    cases w.forest.find? node with
    | none => exact effect_self w
    | some t =>
      simp only [Option.map_some, Option.getD_some, Workspace.save]
      split
      · exact .record _
      · exact effect_self w
  | write node writer state =>
    refine .inl ?_
    rw [perform]
    cases w.forest.find? node with
    | none => exact effect_self w
    | some t => exact effect_writeUnsaved writer state t
  | markClean node =>
    refine .inl ?_
    rw [perform]
    cases w.forest.find? node with
    | none => exact effect_self w
    | some t => exact .markClean t
  | sweep held => exact .inl (.sweep held)

end Workspace

/-! ## What effects keep of the nodes -/

section Update

variable {R : Core → Core → Prop} {g : Tree → Tree}

mutual
/-- After a change of one node the others have what they had, and their children what the change
relates to it. -/
theorem Tree.exists_of_mem_nodes_update {id : NodeId} {u : Tree} (hrefl : ∀ core, R core core)
    (hg : ∀ v, R (g v).core v.core) (t : Tree) (hu : u ∈ (t.update id g).nodes) :
    (∃ v ∈ t.nodes, u.core = v.core ∧ ∀ x ∈ u.children, ∃ y ∈ v.children, R x.core y.core) ∨
      ∃ v ∈ t.nodes, v.id = id ∧ u ∈ (g v).nodes := by
  by_cases hid : t.id = id
  · rw [Tree.update_self hid] at hu
    exact .inr ⟨t, t.self_mem_nodes, hid, hu⟩
  · match t with
    | .comment core text =>
      have hself : (core.id == id) = false := beq_false_of_ne hid
      rw [Tree.update, hself, if_neg (by simp)] at hu
      exact .inl ⟨u, hu, rfl, fun x hx => ⟨x, hx, hrefl _⟩⟩
    | .directive core statement =>
      have hself : (core.id == id) = false := beq_false_of_ne hid
      rw [Tree.update, hself, if_neg (by simp)] at hu
      exact .inl ⟨u, hu, rfl, fun x hx => ⟨x, hx, hrefl _⟩⟩
    | .block core statement children =>
      have hself : (core.id == id) = false := beq_false_of_ne hid
      rw [Tree.update, hself, if_neg (by simp), Tree.nodes] at hu
      rcases List.mem_cons.1 hu with rfl | hu
      · refine .inl ⟨_, Tree.self_mem_nodes _, rfl, fun x hx => ?_⟩
        rw [Tree.children, Forest.update_eq_map] at hx
        obtain ⟨y, hy, rfl⟩ := List.mem_map.1 hx
        refine ⟨y, hy, ?_⟩
        by_cases hyid : y.id = id
        · rw [Tree.update_self hyid]
          exact hg y
        · rw [Tree.update_core fun h => absurd h hyid]
          exact hrefl _
      · rcases Forest.exists_of_mem_nodes_update hrefl hg children hu with ⟨v, hv, h⟩ | ⟨v, hv, h⟩
        · exact .inl ⟨v, Tree.mem_nodes_of_mem_children hv, h⟩
        · exact .inr ⟨v, Tree.mem_nodes_of_mem_children hv, h⟩

theorem Forest.exists_of_mem_nodes_update {id : NodeId} {u : Tree} (hrefl : ∀ core, R core core)
    (hg : ∀ v, R (g v).core v.core) (f : Forest) (hu : u ∈ Forest.nodes (Forest.update id g f)) :
    (∃ v ∈ Forest.nodes f,
        u.core = v.core ∧ ∀ x ∈ u.children, ∃ y ∈ v.children, R x.core y.core) ∨
      ∃ v ∈ Forest.nodes f, v.id = id ∧ u ∈ (g v).nodes := by
  match f with
  | [] => simp [Forest.update] at hu
  | t :: f =>
    rw [Forest.update, Forest.nodes_cons, List.mem_append] at hu
    rw [Forest.nodes_cons]
    rcases hu with hu | hu
    · rcases Tree.exists_of_mem_nodes_update hrefl hg t hu with ⟨v, hv, h⟩ | ⟨v, hv, h⟩
      · exact .inl ⟨v, List.mem_append_left _ hv, h⟩
      · exact .inr ⟨v, List.mem_append_left _ hv, h⟩
    · rcases Forest.exists_of_mem_nodes_update hrefl hg f hu with ⟨v, hv, h⟩ | ⟨v, hv, h⟩
      · exact .inl ⟨v, List.mem_append_right _ hv, h⟩
      · exact .inr ⟨v, List.mem_append_right _ hv, h⟩
end

end Update

theorem Tree.mem_nodes_withChildren {k : Forest → Forest} (hu : u ∈ (t.withChildren k).nodes) :
    u.core = t.core ∨ u ∈ Forest.nodes (k t.children) := by
  cases t with
  | block core statement children =>
    rw [Tree.withChildren, Tree.nodes] at hu
    rcases List.mem_cons.1 hu with rfl | hu
    · exact .inl rfl
    · exact .inr hu
  | comment core text =>
    left
    rw [List.mem_singleton.1 hu]
  | directive core statement =>
    left
    rw [List.mem_singleton.1 hu]

mutual
/-- What is swept away leaves the other nodes as they are. -/
theorem Tree.nodes_sweep (held : List NodeId) (t : Tree) :
    (Forest.nodes (t.sweep held)).Sublist t.nodes := by
  match t with
  | .comment core text =>
    rw [Tree.sweep]
    split <;> simp
  | .directive core statement =>
    rw [Tree.sweep]
    split <;> simp
  | .block core statement children =>
    rw [Tree.sweep]
    split
    · simp
    · rw [Tree.nodes]
      exact (Forest.nodes_sweep held children).cons _

theorem Forest.nodes_sweep (held : List NodeId) (f : Forest) :
    (Forest.nodes (Forest.sweep held f)).Sublist (Forest.nodes f) := by
  match f with
  | [] => simp [Forest.sweep]
  | t :: f =>
    rw [Forest.sweep, Forest.nodes_append, Forest.nodes_cons]
    exact (Tree.nodes_sweep held t).append (Forest.nodes_sweep held f)
end

mutual
/-- The nodes of fragments have no changes, and are younger than the blocks they are made under. -/
theorem Tree.core_ofFragment (k : Kinship) (ancestor next : NodeId) (f : Fragment)
    (h : ancestor < next) :
    ∀ t ∈ Forest.nodes (Tree.ofFragment k ancestor next f).1.toList,
      ∃ a id fragment, t.core = k.core id a fragment ∧ a < id := by
  match f with
  | ⟨source, .document, span, leading, header, trailing, footer, children⟩ =>
    simp [Tree.ofFragment]
  | ⟨source, .comment text, span, leading, header, trailing, footer, children⟩ =>
    intro t ht
    simp only [Tree.ofFragment, Option.toList_some, Forest.nodes_cons, Forest.nodes_nil, Tree.nodes,
      List.append_nil, List.mem_singleton] at ht
    exact ⟨ancestor, next, _, by rw [ht]; rfl, h⟩
  | ⟨source, .directive name arguments, span, leading, header, trailing, footer, children⟩ =>
    intro t ht
    simp only [Tree.ofFragment, Option.toList_some, Forest.nodes_cons, Forest.nodes_nil, Tree.nodes,
      List.append_nil, List.mem_singleton] at ht
    exact ⟨ancestor, next, _, by rw [ht]; rfl, h⟩
  | ⟨source, .block name arguments, span, leading, header, trailing, footer, children⟩ =>
    intro t ht
    simp only [Tree.ofFragment, Option.toList_some, Forest.nodes_cons, Forest.nodes_nil, Tree.nodes,
      List.append_nil, List.mem_cons] at ht
    rcases ht with rfl | ht
    · exact ⟨ancestor, next, _, rfl, h⟩
    · exact Forest.core_ofFragments k next (next + 1) children (Nat.lt_succ_self _) t ht

theorem Forest.core_ofFragments (k : Kinship) (ancestor next : NodeId) (fs : List Fragment)
    (h : ancestor < next) :
    ∀ t ∈ Forest.nodes (Forest.ofFragments k ancestor next fs).1,
      ∃ a id fragment, t.core = k.core id a fragment ∧ a < id := by
  match fs with
  | [] => simp [Forest.ofFragments]
  | f :: fs =>
    intro t ht
    rw [Forest.ofFragments_cons, Forest.nodes_append, List.mem_append] at ht
    rcases ht with ht | ht
    · exact Tree.core_ofFragment k ancestor next f h t ht
    · obtain ⟨n, hnext, -⟩ := Tree.ids_ofFragment k ancestor next f
      rw [hnext] at ht
      exact Forest.core_ofFragments k ancestor (next + n) fs
        (Nat.lt_of_lt_of_le h (Nat.le_add_right ..)) t ht
end

/-- What is inside a new node has new numbers, as the node itself. -/
theorem Workspace.next_le_of_mem_nodes {kin : Kinship} {fragments : List Fragment}
    (hid : t.id = w.next)
    (hchildren : t.children = (Forest.ofFragments kin w.next (w.next + 1) fragments).1)
    (hu : u ∈ t.nodes) : w.next ≤ u.id := by
  rw [t.nodes_eq] at hu
  rcases List.mem_cons.1 hu with rfl | hu
  · exact Nat.le_of_eq hid.symm
  · obtain ⟨n, -, hids⟩ := Forest.ids_ofFragments kin w.next (w.next + 1) fragments
    rw [← hchildren] at hids
    have hmem : u.id ∈ (Forest.nodes t.children).map Tree.id := List.mem_map_of_mem hu
    rw [hids, List.mem_range'_1] at hmem
    exact Nat.le_of_succ_le hmem.1

/-- Looking leaves what nodes and their children have. -/
theorem Forest.exists_of_mem_nodes_list {blocks : List NodeId}
    (hu : u ∈ Forest.nodes (f.list blocks)) :
    ∃ v ∈ Forest.nodes f,
      u.core = v.core ∧ ∀ x ∈ u.children, ∃ y ∈ v.children, x.core = y.core := by
  have hmem : u.forget ∈ Forest.nodes ((f.list blocks).map Tree.forget) := by
    rw [Forest.nodes_forget]
    exact List.mem_map_of_mem hu
  rw [Forest.forget_list, Forest.nodes_forget] at hmem
  obtain ⟨v, hv, heq⟩ := List.mem_map.1 hmem
  refine ⟨v, hv, by rw [← Tree.forget_core, ← heq, Tree.forget_core], fun x hx => ?_⟩
  have hx' : x.forget ∈ u.forget.children := by
    rw [Tree.forget_children]
    exact List.mem_map_of_mem hx
  rw [← heq, Tree.forget_children] at hx'
  obtain ⟨y, hy, hyx⟩ := List.mem_map.1 hx'
  exact ⟨y, hy, by rw [← Tree.forget_core, ← hyx, Tree.forget_core]⟩

/-! ## Alterations -/

namespace Workspace.Alters

variable {g : Tree → Tree} {loose : Forest} {next : NodeId}

/-- An alteration keeps what nodes have. -/
theorem core (h : w.Alters t g loose next) (u : Tree) : (g u).core = u.core := by
  cases h with
  | add hblock hindex => exact Tree.withChildren_core _
  | delete hu => exact Tree.withChildren_core _
  | setParameters parameters => exact Tree.mapStatement_core _

/-- Inside a node that is altered are the nodes that were there, and at most a new one. -/
theorem mem_nodes (h : w.Alters t g loose next) (hu : u ∈ Forest.nodes loose ++ (g t).nodes) :
    u.core = t.core ∨ u ∈ Forest.nodes t.children ∨
      (u.core = w.childCore t ∧ u.children = []) := by
  cases h with
  | @add content standing index hblock hindex =>
    rw [Forest.nodes_nil, List.nil_append] at hu
    rcases Tree.mem_nodes_withChildren hu with hcore | hu
    · exact .inl hcore
    · obtain ⟨v, hv, huv⟩ := Forest.mem_nodes.1 hu
      rcases List.eq_or_mem_of_mem_insertIdx hv with rfl | hv
      · rw [Tree.nodes_of_children_eq_nil (content.tree_children ..), List.mem_singleton] at huv
        rw [huv]
        exact .inr (.inr ⟨content.tree_core .., content.tree_children ..⟩)
      · exact .inr (.inl (Forest.mem_nodes.2 ⟨v, hv, huv⟩))
  | @delete v hv =>
    rw [Forest.nodes_cons, Forest.nodes_nil, List.append_nil, List.mem_append] at hu
    rcases hu with hu | hu
    · exact .inr (.inl (Forest.mem_nodes.2 ⟨v, hv, hu⟩))
    · rcases Tree.mem_nodes_withChildren hu with hcore | hu
      · exact .inl hcore
      · obtain ⟨x, hx, hux⟩ := Forest.mem_nodes.1 hu
        exact .inr (.inl (Forest.mem_nodes.2 ⟨x, List.mem_of_mem_filter hx, hux⟩))
  | setParameters parameters =>
    rw [Forest.nodes_nil, List.nil_append, Tree.nodes_eq, Tree.mapStatement_children] at hu
    rcases List.mem_cons.1 hu with rfl | hu
    · exact .inl (Tree.mapStatement_core _)
    · exact .inr (.inl hu)

/-- All nodes but the altered one and a new one have what they had, and so have their children. -/
theorem exists_of_mem_nodes (h : w.Alters t g loose next) (hw : w.forest.Tidy)
    (ht : t ∈ Forest.nodes w.forest)
    (hu : u ∈ Forest.nodes (loose ++ w.forest.update t.id g)) :
    u.core = t.core ∨
      (∃ v ∈ Forest.nodes w.forest,
        u.core = v.core ∧ ∀ x ∈ u.children, ∃ y ∈ v.children, x.core = y.core) ∨
      (u.core = w.childCore t ∧ u.children = []) := by
  -- inside the altered node the nodes are as they were
  have hinside : u ∈ Forest.nodes loose ++ (g t).nodes → u.core = t.core ∨
      (∃ v ∈ Forest.nodes w.forest,
        u.core = v.core ∧ ∀ x ∈ u.children, ∃ y ∈ v.children, x.core = y.core) ∨
      (u.core = w.childCore t ∧ u.children = []) := by
    intro hu
    rcases h.mem_nodes hu with hcore | hu | hnew
    · exact .inl hcore
    · exact .inr (.inl ⟨u, Forest.mem_nodes_of_below ht hu, rfl, fun x hx => ⟨x, hx, rfl⟩⟩)
    · exact .inr (.inr hnew)
  rw [Forest.nodes_append, List.mem_append] at hu
  rcases hu with hu | hu
  · exact hinside (List.mem_append_left _ hu)
  · rcases Forest.exists_of_mem_nodes_update (R := Eq) (fun _ => rfl) h.core w.forest hu with
      hv | ⟨v, hv, hid, hu⟩
    · exact .inr (.inl hv)
    · rw [hw.eq_of_id_eq hv ht hid] at hu
      exact hinside (List.mem_append_right _ hu)

end Workspace.Alters

/-! ## Bare trees -/

/-- A tree without flags and without what its nodes remember. -/
def Tree.bare (t : Tree) : Tree := t.settled.forget

@[simp]
theorem Tree.bare_core (t : Tree) : t.bare.core = t.core.clean := by
  rw [Tree.bare, Tree.forget_core, Tree.settled_core]

@[simp]
theorem Tree.bare_id (t : Tree) : t.bare.id = t.id := by
  rw [Tree.id, Tree.bare_core]
  rfl

theorem Tree.bare_children (t : Tree) : t.bare.children = t.children.map Tree.bare := by
  rw [Tree.bare, Tree.forget_children, Tree.settled_children, List.map_map]
  rfl

theorem Tree.bare_block (core : Core) (statement : Statement) (children : Forest) :
    (Tree.block core statement children).bare =
      .block core.clean { statement with standing := none } (children.map Tree.bare) := by
  rw [Tree.bare, Tree.settled_block, Tree.forget_block, List.map_map]
  rfl

theorem Forest.nodes_bare (f : Forest) :
    Forest.nodes (f.map Tree.bare) = (Forest.nodes f).map Tree.bare := by
  have hmap : f.map Tree.bare = (f.map Tree.settled).map Tree.forget := (List.map_map ..).symm
  rw [hmap, Forest.nodes_forget, Forest.nodes_settled, List.map_map]
  rfl

/-- Where trees differ in flags and memories only, the same nodes are found. -/
theorem Forest.exists_of_bare_eq {f f' : Forest} (h : f'.map Tree.bare = f.map Tree.bare)
    (ht : t ∈ Forest.nodes f') : ∃ u ∈ Forest.nodes f, t.bare = u.bare := by
  have hmem : t.bare ∈ (Forest.nodes f').map Tree.bare := List.mem_map_of_mem ht
  rw [← Forest.nodes_bare, h, Forest.nodes_bare] at hmem
  obtain ⟨u, hu, heq⟩ := List.mem_map.1 hmem
  exact ⟨u, hu, heq.symm⟩

theorem Tree.id_eq_of_bare_eq (h : t.bare = u.bare) : t.id = u.id := by
  rw [← t.bare_id, h, u.bare_id]

theorem Tree.clean_eq_of_bare_eq (h : t.bare = u.bare) : t.core.clean = u.core.clean := by
  rw [← t.bare_core, h, u.bare_core]

theorem Tree.ancestor_eq_of_bare_eq (h : t.bare = u.bare) : t.core.ancestor = u.core.ancestor := by
  have hclean := congrArg Core.ancestor (Tree.clean_eq_of_bare_eq h)
  exact hclean

theorem Tree.origin_eq_of_bare_eq (h : t.bare = u.bare) : t.core.origin = u.core.origin := by
  have hclean := congrArg Core.origin (Tree.clean_eq_of_bare_eq h)
  exact hclean

/-- Where nodes differ in flags and memories only, so do their children. -/
theorem Tree.exists_child_of_bare_eq (h : t.bare = u.bare) {x : Tree} (hx : x ∈ t.children) :
    ∃ y ∈ u.children, x.bare = y.bare := by
  have hmem : x.bare ∈ t.bare.children := by
    rw [Tree.bare_children]
    exact List.mem_map_of_mem hx
  rw [h, Tree.bare_children] at hmem
  obtain ⟨y, hy, hyx⟩ := List.mem_map.1 hmem
  exact ⟨y, hy, hyx.symm⟩

/-- Where flags and memories are all that changes, numbers and links stay. -/
theorem Forest.Tidy.of_bare_eq {f f' : Forest} (hf : f.Tidy)
    (h : f'.map Tree.bare = f.map Tree.bare) : f'.Tidy := by
  have hids : ∀ k : Forest, (Forest.nodes k).map Tree.id =
      (Forest.nodes (k.map Tree.bare)).map Tree.id := by
    intro k
    rw [Forest.nodes_bare, List.map_map]
    exact List.map_congr_left fun t _ => t.bare_id.symm
  constructor
  · rw [hids, h, ← hids]
    exact hf.nodup
  · intro t ht u hu
    obtain ⟨t', ht', heq⟩ := Forest.exists_of_bare_eq h ht
    obtain ⟨u', hu', hueq⟩ := Tree.exists_child_of_bare_eq heq hu
    rw [Tree.ancestor_eq_of_bare_eq hueq, Tree.id_eq_of_bare_eq heq]
    exact hf.linked t' ht' u' hu'

theorem Forest.bare_list (f : Forest) (blocks : List NodeId) :
    (f.list blocks).map Tree.bare = f.map Tree.bare := by
  have hmap : ∀ k : Forest, k.map Tree.bare = (k.map Tree.forget).map Tree.settled := by
    intro k
    rw [List.map_map]
    exact List.map_congr_left fun t _ => t.forget_settled
  rw [hmap, Forest.forget_list, ← hmap]

mutual
theorem Tree.bare_mapCores {k : Core → Core} (hk : ∀ core, (k core).clean = core.clean)
    (t : Tree) : (t.mapCores k).bare = t.bare := by
  match t with
  | .comment core text => simp [Tree.mapCores, Tree.bare, Tree.settled, hk]
  | .directive core statement => simp [Tree.mapCores, Tree.bare, Tree.settled, hk]
  | .block core statement children =>
    rw [Tree.mapCores, Tree.bare_block, Tree.bare_block, hk, Forest.bare_mapCores hk children]

theorem Forest.bare_mapCores {k : Core → Core} (hk : ∀ core, (k core).clean = core.clean)
    (f : Forest) : (Forest.mapCores k f).map Tree.bare = f.map Tree.bare := by
  match f with
  | [] => simp [Forest.mapCores]
  | t :: f =>
    rw [Forest.mapCores, List.map_cons, List.map_cons, Tree.bare_mapCores hk t,
      Forest.bare_mapCores hk f]
end

mutual
theorem Tree.bare_markClean (t : Tree) : t.markClean.bare = t.bare := by
  match t with
  | .comment core text => rfl
  | .directive core statement => rfl
  | .block core statement children =>
    rw [Tree.markClean]
    split
    · rw [Tree.bare_block, Tree.bare_block, Forest.bare_markClean children]
      rfl
    · rfl

theorem Forest.bare_markClean (f : Forest) :
    (Forest.markClean f).map Tree.bare = f.map Tree.bare := by
  match f with
  | [] => simp [Forest.markClean]
  | t :: f =>
    rw [Forest.markClean, List.map_cons, List.map_cons, Tree.bare_markClean t,
      Forest.bare_markClean f]
end

mutual
theorem Tree.bare_settle (files : List Path) (t : Tree) : (t.settle files).bare = t.bare := by
  match t with
  | .comment core text =>
    rw [Tree.settle]
    split <;> rfl
  | .directive core statement =>
    rw [Tree.settle]
    split <;> rfl
  | .block core statement children =>
    rw [Tree.settle]
    split
    · rw [Tree.bare_block, Tree.bare_block, Forest.bare_settle files children]
      rfl
    · rfl

theorem Forest.bare_settle (files : List Path) (f : Forest) :
    (Forest.settle files f).map Tree.bare = f.map Tree.bare := by
  match f with
  | [] => simp [Forest.settle]
  | t :: f =>
    rw [Forest.settle, List.map_cons, List.map_cons, Tree.bare_settle files t,
      Forest.bare_settle files f]
end

mutual
theorem Tree.bare_update {id : NodeId} {g : Tree → Tree} (hg : ∀ u, (g u).bare = u.bare)
    (t : Tree) : (t.update id g).bare = t.bare := by
  by_cases hid : t.id = id
  · rw [Tree.update_self hid, hg]
  · match t with
    | .comment core text => simp [Tree.update, show core.id ≠ id from hid]
    | .directive core statement => simp [Tree.update, show core.id ≠ id from hid]
    | .block core statement children =>
      have hself : (core.id == id) = false := beq_false_of_ne hid
      rw [Tree.update, hself, if_neg (by simp), Tree.bare_block, Tree.bare_block,
        Forest.bare_update hg children]

theorem Forest.bare_update {id : NodeId} {g : Tree → Tree} (hg : ∀ u, (g u).bare = u.bare)
    (f : Forest) : (Forest.update id g f).map Tree.bare = f.map Tree.bare := by
  match f with
  | [] => simp [Forest.update]
  | t :: f =>
    rw [Forest.update, List.map_cons, List.map_cons, Tree.bare_update hg t,
      Forest.bare_update hg f]
end

theorem Core.clean_record (id : NodeId) (around : List NodeId) (core : Core) :
    (core.record id around).clean = core.clean := by
  unfold Core.record
  split
  · rfl
  · split <;> rfl

theorem Forest.bare_markModified (f : Forest) (core : Core) :
    (f.markModified core).map Tree.bare = f.map Tree.bare := by
  rw [Forest.markModified_eq]
  exact Forest.bare_mapCores (Core.clean_record _ _) f

theorem Forest.bare_markDirtyAbove (f : Forest) (core : Core) :
    (f.markDirtyAbove core).map Tree.bare = f.map Tree.bare := by
  refine Forest.bare_mapCores (fun c => ?_) f
  split <;> rfl

/-! ## Sound workspaces -/

/-- Every number is given once and is smaller than those to come, every child is linked to its
block, and a node is younger than the block it was made under. -/
structure Workspace.Sound (w : Workspace) : Prop where
  tidy : w.forest.Tidy
  lt_next : ∀ t ∈ Forest.nodes w.forest, t.id < w.next
  older : ∀ t ∈ Forest.nodes w.forest, ∀ id ∈ t.core.ancestor, id < t.id

namespace Workspace.Sound

theorem empty : Workspace.empty.Sound :=
  ⟨⟨by simp [Workspace.empty], by simp [Workspace.empty]⟩, by simp [Workspace.empty],
    by simp [Workspace.empty]⟩

/-- Flags and memories play no part. -/
theorem of_bare_eq (hw : w.Sound) (h : w'.forest.map Tree.bare = w.forest.map Tree.bare)
    (hnext : w'.next = w.next) : w'.Sound := by
  refine ⟨hw.tidy.of_bare_eq h, fun t ht => ?_, fun t ht => ?_⟩
  · obtain ⟨u, hu, heq⟩ := Forest.exists_of_bare_eq h ht
    rw [hnext, Tree.id_eq_of_bare_eq heq]
    exact hw.lt_next u hu
  · obtain ⟨u, hu, heq⟩ := Forest.exists_of_bare_eq h ht
    rw [Tree.id_eq_of_bare_eq heq, Tree.ancestor_eq_of_bare_eq heq]
    exact hw.older u hu

/-- Nodes may go. -/
theorem of_sublist (hw : w.Sound) (h : (Forest.nodes f).Sublist (Forest.nodes w.forest)) :
    Workspace.Sound { w with forest := f } :=
  ⟨⟨(h.map Tree.id).nodup hw.tidy.nodup, fun t ht => hw.tidy.linked t (h.subset ht)⟩,
    fun t ht => hw.lt_next t (h.subset ht), fun t ht => hw.older t (h.subset ht)⟩

theorem linked (hw : w.Sound) (ht : t ∈ Forest.nodes w.forest) : t.Linked := fun u hu =>
  hw.tidy.linked u ((Forest.nodes_sublist _ ht).subset hu)

/-- The numbers that an alteration makes are new, and it leaves all other numbers and links. -/
theorem exists_made (hw : w.Sound) {g : Tree → Tree} {loose : Forest} {next : NodeId}
    (ht : t ∈ Forest.nodes w.forest) (h : w.Alters t g loose next) :
    (g t).Linked ∧ (∀ u ∈ loose, u.Linked) ∧ ∃ made : List NodeId, made.Nodup ∧
      (∀ id ∈ made, w.next ≤ id ∧ id < next) ∧ w.next ≤ next ∧
      ((Forest.nodes loose).map Tree.id ++ (g t).nodes.map Tree.id).Perm
        (made ++ t.nodes.map Tree.id) := by
  cases h with
  | @add content standing index hblock hindex =>
    have hnew := content.tree_core (w.childCore t) standing []
    have hempty := content.tree_children (w.childCore t) standing
    generalize content.tree (w.childCore t) standing [] = new at hnew hempty ⊢
    have hids : new.nodes.map Tree.id = [w.next] := by
      rw [Tree.nodes_of_children_eq_nil hempty, List.map_singleton, Tree.id, hnew]
      rfl
    refine ⟨(hw.linked ht).insertChild (by rw [hnew]; rfl) (Tree.linked_iff.2 (by simp [hempty]))
      index, by simp, [w.next], by simp, by simp, Nat.le_succ _, ?_⟩
    rw [← hids]
    exact Tree.ids_insertChild hblock hindex
  | @delete u hu =>
    refine ⟨(hw.linked ht).filterChildren _, ?_, [], .nil, by simp, Nat.le_refl _, ?_⟩
    · intro v hv
      rw [List.mem_singleton.1 hv]
      exact (Tree.linked_iff.1 (hw.linked ht)).2 u hu
    · rw [Forest.nodes_cons, Forest.nodes_nil, List.append_nil, List.nil_append]
      exact Tree.ids_deleteChild (hw.tidy.nodup_nodes ht) hu
  | setParameters parameters =>
    refine ⟨(hw.linked ht).mapStatement _, by simp, [], .nil, by simp, Nat.le_refl _, ?_⟩
    rw [Tree.ids_mapStatement]
    exact .refl _

/-- An alteration leaves a sound workspace, before it is recorded. -/
theorem alters (hw : w.Sound) {g : Tree → Tree} {loose : Forest} {next : NodeId}
    (ht : t ∈ Forest.nodes w.forest) (h : w.Alters t g loose next)
    (journal : List (Nat × Checkpoint)) :
    Workspace.Sound ⟨loose ++ w.forest.update t.id g, next, journal⟩ := by
  obtain ⟨hlinked, hloose, made, hmade, hfresh, hnext, hperm⟩ := hw.exists_made ht h
  obtain ⟨htidy, hids⟩ := hw.tidy.change loose made ht (h.core t) hlinked hloose hperm hmade
    fun id hid u hu => Nat.ne_of_lt (Nat.lt_of_lt_of_le (hw.lt_next u hu) (hfresh id hid).1)
  refine ⟨htidy, fun u hu => ?_, fun u hu => ?_⟩
  · rcases List.mem_append.1 (hids.mem_iff.1 (List.mem_map_of_mem hu)) with hid | hid
    · exact (hfresh _ hid).2
    · obtain ⟨v, hv, hvid⟩ := List.mem_map.1 hid
      rw [← hvid]
      exact Nat.lt_of_lt_of_le (hw.lt_next v hv) hnext
  · rcases h.exists_of_mem_nodes hw.tidy ht hu with hcore | ⟨v, hv, hcore, -⟩ | ⟨hcore, -⟩
    · rw [Tree.id, hcore]
      exact hw.older t ht
    · rw [Tree.id, hcore]
      exact hw.older v hv
    · -- the new node is younger than its block
      rw [Tree.id, hcore]
      rintro id ⟨rfl⟩
      exact hw.lt_next t ht

/-- A new node gets the next number, and what is inside it the numbers after that. -/
theorem construct (hw : w.Sound) {kin : Kinship} {fragments : List Fragment} (hid : t.id = w.next)
    (hancestor : ∀ id ∈ t.core.ancestor, ∃ u ∈ Forest.nodes w.forest, u.id = id)
    (hchildren : t.children = (Forest.ofFragments kin w.next (w.next + 1) fragments).1)
    (journal : List (Nat × Checkpoint)) :
    Workspace.Sound ⟨t :: w.forest,
      (Forest.ofFragments kin w.next (w.next + 1) fragments).2, journal⟩ := by
  obtain ⟨n, hnext, hids⟩ := Forest.ids_ofFragments kin w.next (w.next + 1) fragments
  have hlinked := Forest.linked_ofFragments kin w.next (w.next + 1) fragments
  have hcores := Forest.core_ofFragments kin w.next (w.next + 1) fragments (Nat.lt_succ_self _)
  rw [← hchildren] at hids hlinked hcores
  have hids' : t.nodes.map Tree.id = List.range' w.next (n + 1) := by
    rw [t.nodes_eq, List.map_cons, hids, hid, List.range'_succ]
  have hmem : ∀ u ∈ t.nodes, w.next ≤ u.id ∧ u.id < w.next + (n + 1) := by
    intro u hu
    have hu' : u.id ∈ t.nodes.map Tree.id := List.mem_map_of_mem hu
    rw [hids', List.mem_range'_1] at hu'
    exact hu'
  obtain ⟨hnodup, hlinks⟩ := Forest.tidy_iff.1 hw.tidy
  refine ⟨Forest.tidy_iff.2 ⟨?_, fun u hu => ?_⟩, fun u hu => ?_, fun u hu => ?_⟩
  · rw [Forest.nodes_cons, List.map_append, List.nodup_append, hids']
    refine ⟨List.nodup_range', hnodup, fun id hid other hother => ?_⟩
    obtain ⟨u, hu, rfl⟩ := List.mem_map.1 hother
    have hlt := hw.lt_next u hu
    rw [List.mem_range'_1] at hid
    exact Nat.ne_of_gt (Nat.lt_of_lt_of_le hlt hid.1)
  · rcases List.mem_cons.1 hu with rfl | hu
    · rw [Tree.linked_iff, hid]
      exact ⟨fun v hv => (hlinked v hv).2, fun v hv => (hlinked v hv).1⟩
    · exact hlinks u hu
  · rw [Forest.nodes_cons, List.mem_append] at hu
    change u.id < (Forest.ofFragments kin w.next (w.next + 1) fragments).2
    rw [hnext]
    rcases hu with hu | hu
    · rw [Nat.add_assoc, Nat.add_comm 1 n]
      exact (hmem u hu).2
    · exact Nat.lt_of_lt_of_le (hw.lt_next u hu) (by rw [Nat.add_assoc]; exact Nat.le_add_right ..)
  · rw [Forest.nodes_cons, List.mem_append] at hu
    rcases hu with hu | hu
    · rw [t.nodes_eq] at hu
      rcases List.mem_cons.1 hu with rfl | hu
      · -- the ancestor is alive already
        intro id hlink
        obtain ⟨v, hv, rfl⟩ := hancestor id hlink
        rw [hid]
        exact hw.lt_next v hv
      · obtain ⟨a, id, fragment, hcore, hlt⟩ := hcores u hu
        rw [Tree.id, hcore]
        rintro b ⟨rfl⟩
        exact hlt
    · exact hw.older u hu

/-- Every effect keeps a workspace sound. -/
theorem effect (hw : w.Sound) (h : w.Effect target w') : w'.Sound := by
  cases h with
  | record journal => exact hw.of_bare_eq rfl rfl
  | list blocks => exact hw.of_bare_eq (Forest.bare_list _ _) rfl
  | sweep held => exact hw.of_sublist (Forest.nodes_sweep held w.forest)
  | construct kin fragments hid hancestor hflags hchildren =>
    refine (hw.construct hid hancestor hchildren w.journal).of_bare_eq ?_ rfl
    split
    · exact Forest.bare_markDirtyAbove _ _
    · rfl
  | change ht h =>
    have hforest : Workspace.Sound ⟨_, _, w.journal⟩ := hw.alters ht h w.journal
    exact hforest.of_bare_eq (Forest.bare_markModified _ _) rfl
  | markClean t => exact hw.of_bare_eq (Forest.bare_update Tree.bare_markClean w.forest) rfl
  | settle blocks root files =>
    refine hw.of_bare_eq ?_ rfl
    rw [← Forest.bare_list w.forest blocks]
    exact Forest.bare_update (Tree.bare_settle files) _

theorem run (hw : w.Sound) (operations : List Operation) : (w.run operations).Sound := by
  induction operations generalizing w with
  | nil => exact hw
  | cons op operations ih =>
    rw [Workspace.run, List.foldl_cons]
    rcases effect_perform hw.tidy op with h | h <;> exact ih (hw.effect h)

end Workspace.Sound

/-! ## Opened documents -/

namespace Workspace

theorem mem_nodes_opened (w : Workspace) (document : Fragment) (p : Policy) :
    (w.opened document p).1 ∈ Forest.nodes (w.opened document p).2.forest :=
  Forest.mem_nodes_of_mem (List.mem_cons_self ..)

theorem Sound.opened (hw : w.Sound) (document : Fragment) (p : Policy) :
    (w.opened document p).2.Sound :=
  hw.construct rfl (by simp [Tree.core]) rfl _

/-- A block that is constructed from a document is its root, as when the document is opened. -/
theorem perform_construct (w : Workspace) {document : Fragment}
    (hpath : document.source.path.text ≠ "") (policy : Option Policy) :
    w.perform
        (.construct ⟨none, none, false, some (.parsed document), policy⟩ (.block "" []) true) =
      (w.opened document (policy.getD Policy.default)).2 := by
  change ((w.openDocument document (policy.getD Policy.default)).toOption.map Prod.snd).getD w = _
  rw [openDocument_of_path hpath]
  rfl

end Workspace

end HttpdConf
