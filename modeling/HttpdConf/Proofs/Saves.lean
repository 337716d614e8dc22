import HttpdConf.Proofs.NodeInvariants
import HttpdConf.Proofs.Rendering
import HttpdConf.Session

/-!
# Saving a document

A save stores the text of a document that has changes and forgets them: no node is dirty or modified
any more. In a run of edits and saves the tree of the document and the text that was last stored are
all that matters, and they are followed by a desk.

## Main definitions

* `Tree.IsFlagged`: a node is dirty when it is modified or has a dirty child
* `Tree.settled`: a tree whose pending changes are forgotten
* `Move`, `Workspace.move`: an edit or a save
* `workFile`, `finalText`: a file after some moves, and the text that is stored for it in the end
* `Desk`, `Desk.move`: the sheet of a document with its stored text, and the effect of moves on it

## Main results

* `Workspace.Tended.writeUnsaved`: what a save does
* `Desk.Follows.move`, `Desk.Follows.run`: moves in a workspace are moves on its desk
* `finalText_eq`, `exists_desk_of_workFile`: the final text of a file is that of its desk
-/

namespace HttpdConf

/-! ## Flags -/

/-- A node is dirty when it is modified itself or has a dirty child. -/
def Tree.IsFlagged (t : Tree) : Prop :=
  t.core.dirty = (t.core.modified || t.children.any fun u => u.core.dirty)

/-- All pending changes of a tree are forgotten. -/
def Tree.settled (t : Tree) : Tree := t.mapCores Core.clean

theorem Path.beq_refl (p : Path) : (p == p) = true := by
  change (p.components == p.components) = true
  simp

theorem Path.compare_self (p : Path) : p.compare p = .eq := by
  have hcomponent : ∀ c : Component, c.compare c = .eq := by
    intro c
    cases c <;> simp [Component.compare]
  rw [Path.compare]
  induction p.components with
  | nil => rfl
  | cons c cs ih => rw [Path.compareComponents, hcomponent, ih]; rfl

theorem Core.settle_eq {path : Path} {core : Core} (hpath : core.path = path) :
    core.settle [path] false = core.clean := by
  simp [Core.settle, Core.clean, hpath, Path.beq_refl]

theorem Core.clean_eq {core : Core} (hdirty : core.dirty = false)
    (hmodified : core.modified = false) : core.clean = core := by
  cases core
  simp_all [Core.clean]

@[simp]
theorem Tree.settled_core (t : Tree) : t.settled.core = t.core.clean := Tree.mapCores_core

theorem Tree.settled_origin (t : Tree) : t.settled.core.origin = t.core.origin := by
  rw [Tree.settled_core]
  rfl

@[simp]
theorem Tree.settled_block (core : Core) (statement : Statement) (children : Forest) :
    (Tree.block core statement children).settled =
      .block core.clean statement (children.map Tree.settled) := by
  rw [Tree.settled, Tree.mapCores, Forest.mapCores_eq_map]
  rfl

theorem Tree.settle_of_clean {written : List Path} {t : Tree} (h : t.core.dirty = false) :
    t.settle written = t := by
  cases t <;> simp only [Tree.core] at h <;> simp [Tree.settle, h]

theorem Forest.settle_of_clean {written : List Path} {f : Forest}
    (h : f.any (fun u => u.core.dirty) = false) : Forest.settle written f = f := by
  induction f with
  | nil => rw [Forest.settle]
  | cons t f ih =>
    obtain ⟨ht, hf⟩ := Bool.or_eq_false_iff.1 ((List.any_cons ..).symm.trans h)
    rw [Forest.settle, Tree.settle_of_clean ht, ih hf]

mutual
/-- When all files of a tree are written, no changes are pending. -/
theorem Tree.settle_eq {path : Path} (t : Tree) (hflag : ∀ u ∈ t.nodes, u.IsFlagged)
    (hpath : ∀ u ∈ t.nodes, u.core.path = path) : t.settle [path] = t.settled := by
  have hself := hflag t t.self_mem_nodes
  have hcore := Core.settle_eq (hpath t t.self_mem_nodes)
  match t with
  | .comment core text =>
    simp only [Tree.IsFlagged, Tree.core, Tree.children, List.any_nil, Bool.or_false] at hself hcore
    rw [Tree.settle, Tree.settled, Tree.mapCores]
    split
    · rw [hcore]
    · rename_i hdirty
      rw [Core.clean_eq (by simpa using hdirty) (by simpa [hself] using hdirty)]
  | .directive core statement =>
    simp only [Tree.IsFlagged, Tree.core, Tree.children, List.any_nil, Bool.or_false] at hself hcore
    rw [Tree.settle, Tree.settled, Tree.mapCores]
    split
    · rw [hcore]
    · rename_i hdirty
      rw [Core.clean_eq (by simpa using hdirty) (by simpa [hself] using hdirty)]
  | .block core statement children =>
    have hinside := Forest.settle_eq children
      (fun u hu => hflag u (Tree.mem_nodes_of_mem_children hu))
      (fun u hu => hpath u (Tree.mem_nodes_of_mem_children hu))
    simp only [Tree.IsFlagged, Tree.core, Tree.children] at hself hcore
    have hnone : (children.map Tree.settled).any (fun u => u.core.dirty) = false := by
      simp [Core.clean]
    rw [Tree.settle, Tree.settled_block]
    split
    · simp only [hinside, hnone, hcore]
    · rename_i hdirty
      have hclean : core.dirty = false := by simpa using hdirty
      rw [hclean] at hself
      obtain ⟨hmodified, hchildren⟩ := Bool.or_eq_false_iff.1 hself.symm
      rw [Core.clean_eq hclean hmodified]
      -- children that are not dirty are left alone, so they have nothing to forget
      rw [← hinside, Forest.settle_of_clean hchildren]

theorem Forest.settle_eq {path : Path} (f : Forest) (hflag : ∀ u ∈ Forest.nodes f, u.IsFlagged)
    (hpath : ∀ u ∈ Forest.nodes f, u.core.path = path) :
    Forest.settle [path] f = f.map Tree.settled := by
  match f with
  | [] => rfl
  | t :: f =>
    rw [Forest.settle, List.map_cons, Tree.settle_eq t (fun u hu => hflag u (by simp [hu]))
      (fun u hu => hpath u (by simp [hu])), Forest.settle_eq f (fun u hu => hflag u (by simp [hu]))
      (fun u hu => hpath u (by simp [hu]))]
end

mutual
/-- A dirty tree leads to a modified node through dirty ones. -/
theorem Tree.exists_modified (t : Tree) (hflag : ∀ u ∈ t.nodes, u.IsFlagged)
    (hdirty : t.core.dirty = true) : ∃ u ∈ t.dirtyNodes, u.core.modified = true := by
  have hself := hflag t t.self_mem_nodes
  rw [Tree.IsFlagged, hdirty] at hself
  match t with
  | .comment core text =>
    have hdirty' : core.dirty = true := hdirty
    refine ⟨.comment core text, by simp [Tree.dirtyNodes, Tree.reached, hdirty'], ?_⟩
    simpa [Tree.children] using hself.symm
  | .directive core statement =>
    have hdirty' : core.dirty = true := hdirty
    refine ⟨.directive core statement, by simp [Tree.dirtyNodes, Tree.reached, hdirty'], ?_⟩
    simpa [Tree.children] using hself.symm
  | .block core statement children =>
    have hdirty' : core.dirty = true := hdirty
    rw [Tree.dirtyNodes, Tree.reached, if_pos hdirty']
    rcases Bool.or_eq_true_iff.1 hself.symm with hmodified | hchild
    · exact ⟨_, List.mem_cons_self, hmodified⟩
    · obtain ⟨u, hu, humod⟩ := Forest.exists_modified children
        (fun u hu => hflag u (Tree.mem_nodes_of_mem_children hu)) hchild
      exact ⟨u, List.mem_cons_of_mem _ hu, humod⟩

theorem Forest.exists_modified (f : Forest) (hflag : ∀ u ∈ Forest.nodes f, u.IsFlagged)
    (hdirty : f.any (fun u => u.core.dirty) = true) :
    ∃ u ∈ Forest.reached Core.dirty f, u.core.modified = true := by
  match f with
  | [] => simp at hdirty
  | t :: f =>
    rw [Forest.reached]
    by_cases ht : t.core.dirty = true
    · obtain ⟨u, hu, humod⟩ := Tree.exists_modified t (fun u hu => hflag u (by simp [hu])) ht
      exact ⟨u, List.mem_append_left _ hu, humod⟩
    · have hrest : f.any (fun u => u.core.dirty) = true := by simpa [ht] using hdirty
      obtain ⟨u, hu, humod⟩ := Forest.exists_modified f (fun u hu => hflag u (by simp [hu])) hrest
      exact ⟨u, List.mem_append_right _ hu, humod⟩
end

mutual
theorem Tree.reached_sublist {p : Core → Bool} (t : Tree) : (t.reached p).Sublist t.nodes := by
  match t with
  | .comment core text => simp only [Tree.reached, Tree.nodes]; split <;> simp
  | .directive core statement => simp only [Tree.reached, Tree.nodes]; split <;> simp
  | .block core statement children =>
    rw [Tree.reached, Tree.nodes]
    split
    · exact (Forest.reached_sublist children).cons_cons _
    · simp

theorem Forest.reached_sublist {p : Core → Bool} (f : Forest) :
    (Forest.reached p f).Sublist (Forest.nodes f) := by
  match f with
  | [] => simp [Forest.reached]
  | t :: f =>
    rw [Forest.reached, Forest.nodes_cons]
    exact (Tree.reached_sublist t).append (Forest.reached_sublist f)
end

/-- A tree of one file with changes has just this file to save. -/
theorem Tree.unsavedFiles_eq {path : Path} {t : Tree} (hflag : ∀ u ∈ t.nodes, u.IsFlagged)
    (hpath : ∀ u ∈ t.nodes, u.core.path = path) (hdirty : t.core.dirty = true) :
    t.unsavedFiles = [path] := by
  have hinsert : path.insert [path] = [path] := by simp [Path.insert, Path.compare_self]
  have hfold : ∀ ts : List Tree, (∀ u ∈ ts, u.core.path = path) →
      ts.foldl (fun files u => u.core.path.insert files) [path] = [path] := by
    intro ts hts
    induction ts with
    | nil => rfl
    | cons u ts ih =>
      rw [List.foldl_cons, hts u (by simp), hinsert, ih fun v hv => hts v (by simp [hv])]
  obtain ⟨u, hu, hmodified⟩ := t.exists_modified hflag hdirty
  have hmem : u ∈ t.dirtyNodes.filter fun u => u.core.modified :=
    List.mem_filter.2 ⟨hu, hmodified⟩
  have hall : ∀ v ∈ t.dirtyNodes.filter (fun u => u.core.modified), v.core.path = path :=
    fun v hv => hpath v (t.reached_sublist.subset (List.mem_filter.1 hv).1)
  -- some node is modified, and all modified nodes have the same file
  rw [Tree.unsavedFiles]
  cases hts : t.dirtyNodes.filter fun u => u.core.modified with
  | nil => simp [hts] at hmem
  | cons v ts =>
    rw [hts] at hall
    rw [List.foldl_cons, hall v (by simp), Path.insert]
    exact hfold ts fun v hv => hall v (by simp [hv])

section

variable {path : Path} {t : Tree}

/-- A node of a file is the only root that the file has in its tree. -/
theorem Tree.fileRoots_of_path (h : (t.core.path == path) = true) : t.fileRoots path = [t] := by
  cases t <;> exact if_pos h

theorem Tree.fileRoots_of_not_path (h : (t.core.path == path) = false) :
    t.fileRoots path = Forest.fileRoots path t.children := by
  cases t <;> rw [Tree.fileRoots, if_neg (by simpa [Tree.core] using h)] <;> rfl

end

/-! ## Writing -/

theorem Tree.settled_id (t : Tree) : t.settled.id = t.id := by
  rw [Tree.id, Tree.settled_core]
  rfl

theorem Tree.nodes_settled (t : Tree) : t.settled.nodes = t.nodes.map Tree.settled :=
  Tree.nodes_mapCores t

theorem Tree.ids_settled (t : Tree) : t.settled.nodes.map Tree.id = t.nodes.map Tree.id := by
  rw [Tree.nodes_settled, List.map_map]
  exact List.map_congr_left fun u _ => u.settled_id

theorem Forest.nodes_settled (f : Forest) :
    Forest.nodes (f.map Tree.settled) = (Forest.nodes f).map Tree.settled := by
  have hmap := Forest.nodes_mapCores (h := Core.clean) f
  rwa [Forest.mapCores_eq_map] at hmap

theorem Tree.settled_children (t : Tree) : t.settled.children = t.children.map Tree.settled :=
  Tree.mapCores_children

theorem Tree.settled_isBlock (t : Tree) : t.settled.isBlock = t.isBlock := by
  cases t <;> rfl

mutual
theorem Tree.forget_settled (t : Tree) : t.settled.forget = t.forget.settled := by
  match t with
  | .comment core text => rfl
  | .directive core statement => rfl
  | .block core statement children =>
    rw [Tree.settled_block, Tree.forget_block, Tree.forget_block, Tree.settled_block,
      Forest.forget_settled children]

theorem Forest.forget_settled (f : Forest) :
    (f.map Tree.settled).map Tree.forget = (f.map Tree.forget).map Tree.settled := by
  match f with
  | [] => rfl
  | t :: f =>
    rw [List.map_cons, List.map_cons, List.map_cons, List.map_cons, Tree.forget_settled t,
      Forest.forget_settled f]
end

/-- What a tree remembers has no part in its flags and files. -/
theorem Tree.forall_of_forget {t : Tree} {path : Path}
    (hflag : ∀ u ∈ t.forget.nodes, u.IsFlagged) (hpath : ∀ u ∈ t.forget.nodes, u.core.path = path) :
    (∀ u ∈ t.nodes, u.IsFlagged) ∧ ∀ u ∈ t.nodes, u.core.path = path := by
  rw [Tree.nodes_forget] at hflag hpath
  refine ⟨fun u hu => ?_, fun u hu => ?_⟩
  · have hforget := hflag u.forget (List.mem_map_of_mem hu)
    rw [Tree.IsFlagged, Tree.forget_core, Tree.forget_children, List.any_map] at hforget
    rw [Tree.IsFlagged, hforget]
    congr 2
    exact funext fun v => by simp
  · rw [← Tree.forget_core]
    exact hpath u.forget (List.mem_map_of_mem hu)

namespace Workspace.Tended

variable {w : Workspace} {r : Tree}

/-- When the changes of an open document are forgotten, it stays open. -/
theorem settled (hw : w.Tended r) {g : Tree → Tree} (hg : g r = r.settled) :
    Tended { w with forest := w.forest.update r.id g } r.settled := by
  have hrnode := Forest.mem_nodes_of_mem hw.mem
  have hunique : ∀ u ∈ Forest.nodes w.forest, u.id = r.id → u = r := fun u hu hid =>
    hw.tidy.eq_of_id_eq hu hrnode hid
  obtain ⟨hnodup, hlinks⟩ := Forest.tidy_iff.1 hw.tidy
  -- flags have no part in numbers and links, so the forest stays tidy
  have hperm : ((Forest.nodes (w.forest.update r.id g)).map Tree.id).Perm
      ((Forest.nodes w.forest).map Tree.id) := by
    refine Forest.update_perm [] [] w.forest hnodup ⟨r, hrnode, rfl⟩ fun u hu hid => ?_
    rw [hunique u hu hid, hg, Tree.ids_settled]
  have hlinked : r.settled.Linked := by
    have htidy : Forest.Tidy [r] := by
      refine Forest.tidy_iff.2 ⟨?_, by simpa using hlinks r hw.mem⟩
      simpa using hw.tidy.nodup_nodes hrnode
    have hsettled := htidy.mapCores (h := Core.clean) fun core => ⟨rfl, rfl⟩
    exact (Forest.tidy_iff.1 hsettled).2 _ (by simp [Forest.mapCores, Tree.settled])
  refine ⟨?_, by rw [Tree.settled_id, hw.first], ?_, ?_, fun u hu => ?_⟩
  · have hmem := List.mem_map_of_mem (f := Tree.update r.id g) hw.mem
    rwa [Tree.update_self rfl, hg, ← Forest.update_eq_map] at hmem
  · rw [Tree.settled_core]
    exact hw.top
  · refine Forest.tidy_iff.2 ⟨hperm.nodup_iff.2 hnodup, ?_⟩
    refine Forest.update_linked w.forest hlinks fun u hu hid => ?_
    rw [hunique u hu hid, hg, Tree.settled_core]
    exact ⟨hlinked, rfl⟩
  · obtain ⟨v, hv, hid⟩ := List.mem_map.1 (hperm.mem_iff.1 (List.mem_map_of_mem hu))
    rw [← hid]
    exact hw.lt_next v hv

theorem root_eq (hw : w.Tended r) : w.forest.root r = r := by
  have hid : r.core.id = 0 := hw.first
  rw [Forest.root, Forest.lineage, hid, Forest.lineageUpTo]
  rfl

/-- Saving a document stores its text if it has changes, and forgets them. -/
theorem writeUnsaved (hw : w.Tended r) {path : Path} (hflag : ∀ u ∈ r.forget.nodes, u.IsFlagged)
    (hpath : ∀ u ∈ r.forget.nodes, u.core.path = path)
    (hdocument : r.core.origin.isDocument = true) (store : Store) :
    ∃ files w' r', (w.writeUnsaved (Step.storeWriter none) r).run store =
        ((.ok files, w'),
          if r.core.dirty then store.put path (w.forest.render [r]) else store) ∧
      w'.Tended r' ∧ w'.next = w.next ∧ r'.forget = r.forget.settled := by
  obtain ⟨hflag', hpath'⟩ := Tree.forall_of_forget hflag hpath
  by_cases hdirty : r.core.dirty = true
  · -- the one file is stored as it is rendered from the root; looking at nodes changes nothing else
    have hfiles := Tree.unsavedFiles_eq hflag' hpath' hdirty
    have hroots : r.fileRoots path = [r] := Tree.fileRoots_of_path (by
      rw [hpath' r r.self_mem_nodes, Path.beq_refl])
    obtain ⟨r₁, hw₁, hr₁⟩ := hw.list (blockIds r.dirtyNodes ++
      (r.fileRootsListed path ++ (r.renderListed ++ blockIds r.dirtyNodes)))
    have hid : r₁.id = r.id := by rw [hw.first, hw₁.first]
    have hsettle : r₁.settle [path] = r₁.settled := by
      rw [← hr₁] at hflag hpath
      obtain ⟨hflag₁, hpath₁⟩ := Tree.forall_of_forget hflag hpath
      exact Tree.settle_eq r₁ hflag₁ hpath₁
    refine ⟨[path], _, r₁.settled, ?_, hw₁.settled (g := Tree.settle [path]) hsettle, rfl, ?_⟩
    · rw [if_pos hdirty, Workspace.writeUnsaved, hfiles, hw.root_eq, hid]
      simp [Workspace.writeFiles, hdocument, hroots, Step.storeWriter, Store.writer, Writer.ofText]
      rfl
    · rw [Tree.forget_settled, hr₁]
  · -- there is nothing to store, and nothing to forget
    obtain ⟨r', hw', hr'⟩ := hw.list (blockIds r.dirtyNodes)
    have hfiles : r.unsavedFiles = [] := by
      cases r <;> simp only [Tree.core] at hdirty <;>
        simp [Tree.unsavedFiles, Tree.dirtyNodes, Tree.reached, hdirty]
    have hclean : r.forget.core.dirty = false := by simpa using hdirty
    refine ⟨[], _, r', ?_, hw', rfl, ?_⟩
    · rw [if_neg hdirty, Workspace.writeUnsaved, hfiles]
      rfl
    · rw [hr', ← Tree.settle_eq r.forget hflag hpath, Tree.settle_of_clean hclean]

end Workspace.Tended

/-! ## What edits keep -/

/-- An edit keeps all nodes flagged. -/
theorem Sheet.isFlagged_edit {s s' : Sheet} {e : Edit} (hs : ∀ u ∈ s.tree.nodes, u.IsFlagged)
    (hedit : s.edit e = some s') : ∀ u ∈ s'.tree.nodes, u.IsFlagged := by
  have hstirred : ∀ core statement children children', (∃ v ∈ children', v.core.dirty = true) →
      (Tree.block core statement children).IsFlagged →
      (Tree.block core.stirred statement children').IsFlagged := by
    rintro core statement children children' ⟨v, hv, hdirty⟩ -
    have hany : children'.any (fun u => u.core.dirty) = true := List.any_eq_true.2 ⟨v, hv, hdirty⟩
    change true = (core.modified || children'.any fun u => u.core.dirty)
    rw [hany, Bool.or_true]
  have htouched : ∀ u : Tree, (u.mapCore Core.touched).IsFlagged := by
    intro u
    simp [Tree.IsFlagged, Core.touched]
  -- the node that was changed is modified itself, so only what is inside it matters
  have hchange : ∀ {id : NodeId} {g : Tree → Tree},
      (∀ u : Tree, (∀ v ∈ Forest.nodes u.children, v.IsFlagged) →
        ∀ v ∈ Forest.nodes (g u).children, v.IsFlagged) →
      ∀ u ∈ (s.tree.touch id g).nodes, u.IsFlagged := by
    intro id g hg
    refine Tree.forall_nodes_touch s.tree hstirred (fun u _ _ hu v hv => ?_) hs
    rw [Tree.nodes_eq, Tree.mapCore_children] at hv
    rcases List.mem_cons.1 hv with rfl | hv
    · exact htouched _
    · exact hg u (fun x hx => hu x (Tree.mem_nodes_of_mem_children hx)) v hv
  obtain ⟨blocks, rfl, rfl⟩ | ⟨block, content, position, b, rfl, -, -, rfl⟩ |
    ⟨block, child, -, rfl, -, rfl⟩ | ⟨node, parameters, b, rfl, -, -, rfl⟩ := Sheet.edit_cases hedit
  · exact hs
  · refine hchange fun u hu v hv => ?_
    cases u with
    | block core statement children =>
      obtain ⟨x, hx, hv⟩ := Forest.mem_nodes.1 hv
      rcases List.eq_or_mem_of_mem_insertIdx hx with rfl | hx
      · rw [NodeContent.eq_of_mem_nodes_tree hv]
        cases content <;> rfl
      · exact hu v (Forest.mem_nodes.2 ⟨x, hx, hv⟩)
    | _ => simp [Tree.withChildren, Tree.children] at hv
  · refine hchange fun u hu v hv => ?_
    cases u with
    | block core statement children =>
      obtain ⟨x, hx, hv⟩ := Forest.mem_nodes.1 hv
      exact hu v (Forest.mem_nodes.2 ⟨x, (List.mem_filter.1 hx).1, hv⟩)
    | _ => simp [Tree.withChildren, Tree.children] at hv
  · refine hchange fun u hu v hv => hu v ?_
    rwa [Tree.mapStatement_children] at hv

/-- The fragment has a text, which has an open tag and a close tag. -/
structure Fragment.HasTags (f : Fragment) : Prop where
  text_ne : f.text.toList ≠ []
  header_ne : (f.slice f.header).toList ≠ []
  footer_getLast? : (f.slice f.footer).toList.getLast? = some '>'

/-- The node belongs to a file and is no document; if it is a block that was read, it has tags. -/
structure Tree.IsGrown (path : Path) (t : Tree) : Prop where
  path_eq : t.core.path = path
  isDocument_eq : t.core.origin.isDocument = false
  hasTags : t.isBlock = true → t.core.origin.synthetic = false → t.core.origin.fragment.HasTags

/-- Every edit keeps nodes grown. -/
theorem Edit.keeps_isGrown (e : Edit) (document : Fragment) :
    e.Keeps document (Tree.IsGrown document.source.path) where
  block := by
    intro core core' statement children children' h horigin hpath _
    have h₂ := h.isDocument_eq
    have h₃ := h.hasTags
    simp only [Tree.core] at h₂ h₃
    refine ⟨hpath.trans h.path_eq, ?_, ?_⟩ <;> simp only [Tree.core, horigin]
    · exact h₂
    · exact h₃
  touched {u} h := by
    refine ⟨?_, ?_, fun hblock => ?_⟩
    · simpa [Core.touched] using h.path_eq
    · simpa [Core.touched] using h.isDocument_eq
    · simpa [Core.touched] using h.hasTags (by cases u <;> simp_all [Tree.mapCore, Tree.isBlock])
  new := by
    rintro block content position core next - hpath
    have hcore : (content.tree (core.child next) true []).forget.core = core.child next := by
      rw [Tree.forget_core, NodeContent.tree_core]
    refine ⟨?_, ?_, ?_⟩ <;> rw [hcore]
    · rcases hpath with hpath | ⟨statement, children, h⟩
      · exact hpath
      · exact h.path_eq
    · rfl
    · -- a new block was not read, so it need not have tags
      intro _ hsynthetic
      simp [Core.child, Origin.derived] at hsynthetic
  parameters {node parameters u} _ h := by
    refine ⟨?_, ?_, fun hblock => ?_⟩
    · simpa [Core.touched] using h.path_eq
    · simpa [Core.touched] using h.isDocument_eq
    · simpa [Core.touched] using
        h.hasTags (by cases u <;> simp_all [Tree.mapStatement, Tree.mapCore, Tree.isBlock])

/-- A node that was read and has no changes. -/
structure Tree.IsFresh (path : Path) (t : Tree) : Prop extends t.IsGrown path where
  dirty_eq : t.core.dirty = false
  modified_eq : t.core.modified = false

mutual
/-- What was read is opened without changes. -/
theorem Layout.Shows.isFresh {source : SourceFile} (k : Kinship) (ancestor next : NodeId)
    (l : Layout) {f : Fragment} (h : l.Shows source f) :
    ∃ t, (Tree.ofFragment k ancestor next f).1 = some t ∧
      ∀ u ∈ t.nodes, u.IsFresh source.path := by
  obtain ⟨file, kind, span, leading, header, trailingSpan, footer, children⟩ := f
  match l with
  | .comment gap text =>
    rw [Layout.Shows] at h
    obtain rfl : kind = .comment (commentText text) := h.1
    obtain rfl : file = source := h.2.2.2.source_eq
    refine ⟨_, rfl, fun u hu => ?_⟩
    rw [Tree.nodes] at hu
    rw [List.mem_singleton.1 hu]
    exact ⟨⟨rfl, rfl, by simp [Tree.isBlock]⟩, rfl, rfl⟩
  | .directive gap name arguments =>
    rw [Layout.Shows] at h
    obtain rfl : kind = .directive name _ := h.1
    obtain rfl : file = source := h.2.2.2.source_eq
    refine ⟨_, rfl, fun u hu => ?_⟩
    rw [Tree.nodes] at hu
    rw [List.mem_singleton.1 hu]
    exact ⟨⟨rfl, rfl, by simp [Tree.isBlock]⟩, rfl, rfl⟩
  | .block gap name arguments inside trailing closing blanks =>
    rw [Layout.Shows] at h
    obtain rfl : kind = .block name _ := h.1
    obtain ⟨-, hchildren, hparts⟩ := h
    have hinside := Layout.ShowsAll.isFresh k next (next + 1) inside hchildren
    refine ⟨_, rfl, fun u hu => ?_⟩
    rw [Tree.nodes] at hu
    rcases List.mem_cons.1 hu with rfl | hu
    · refine ⟨⟨?_, rfl, fun _ _ => ?_⟩, rfl, rfl⟩
      · exact congrArg SourceFile.path hparts.source_eq
      · -- the text and both tags of the block are those of its chunks
        have htext := (hparts.slice_eq span).trans hparts.span.slice_eq
        have hheader := (hparts.slice_eq header).trans hparts.header.slice_eq
        have hfooter := (hparts.slice_eq footer).trans hparts.footer.slice_eq
        simp only [Tree.core, Kinship.core, Origin.parsed]
        refine ⟨?_, ?_, ?_⟩
        · rw [Fragment.text, htext, String.toList_ofList]
          simp [openTagChunks]
        · rw [hheader, String.toList_ofList]
          simp [openTagChunks]
        · rw [hfooter, String.toList_ofList]
          simp [List.getLast?_cons, List.getLast?_append]
    · exact hinside u hu

theorem Layout.ShowsAll.isFresh {source : SourceFile} (k : Kinship) (ancestor next : NodeId)
    (ls : List Layout) {fs : List Fragment} (h : Layout.ShowsAll source ls fs) :
    ∀ u ∈ Forest.nodes (Forest.ofFragments k ancestor next fs).1, u.IsFresh source.path := by
  match ls with
  | [] =>
    rw [Layout.ShowsAll] at h
    simp [h, Forest.ofFragments]
  | l :: ls =>
    rw [Layout.ShowsAll] at h
    obtain ⟨f, rest, rfl, hf, hrest⟩ := h
    obtain ⟨t, ht, hfresh⟩ := Layout.Shows.isFresh k ancestor next l hf
    have hlater := Layout.ShowsAll.isFresh k ancestor (Tree.ofFragment k ancestor next f).2 ls hrest
    intro u hu
    rw [Forest.ofFragments_cons, ht, Option.toList_some, List.singleton_append, Forest.nodes_cons,
      List.mem_append] at hu
    exact hu.elim (hfresh u) (hlater u)
end

/-- A document whose nodes are flagged and grown. -/
structure Tree.IsKept (document : Fragment) (t : Tree) : Prop where
  isDocumentWith : t.IsDocumentWith document (Tree.IsGrown document.source.path)
  isFlagged : ∀ u ∈ t.nodes, u.IsFlagged

/-- A document is opened with flagged and grown nodes. -/
theorem Page.Shows.isKept_opened {source : SourceFile} {p : Page} {document : Fragment}
    (h : p.Shows source document) (policy : Policy) :
    (Sheet.opened document policy).tree.IsKept document := by
  have hsource : document.source = source := h.parts.source_eq
  have hfresh := Layout.ShowsAll.isFresh ⟨policy, 0⟩ 0 1 p.statements h.children
  rw [← hsource] at hfresh
  -- no node has a change, so all flags are down
  have hclean : ∀ u ∈ (Sheet.opened document policy).tree.nodes,
      u.core.dirty = false ∧ u.core.modified = false := by
    intro u hu
    rw [Sheet.opened, Tree.nodes] at hu
    rcases List.mem_cons.1 hu with rfl | hu
    · exact ⟨rfl, rfl⟩
    · exact ⟨(hfresh u hu).dirty_eq, (hfresh u hu).modified_eq⟩
  refine ⟨⟨_, _, none, rfl, rfl, rfl, fun u hu => (hfresh u hu).toIsGrown⟩, fun u hu => ?_⟩
  have hnone : u.children.any (fun v => v.core.dirty) = false := by
    rw [List.any_eq_false]
    intro v hv
    have hmem : v ∈ u.nodes := Tree.mem_nodes_of_mem_children (Forest.mem_nodes_of_mem hv)
    simp [(hclean v ((Tree.nodes_sublist _ hu).subset hmem)).1]
  rw [Tree.IsFlagged, hnone, (hclean u hu).1, (hclean u hu).2]
  rfl

/-! ## Runs of edits and saves -/

/-- A call on an open document: an edit, or saving all changes in the store. -/
inductive Move where
  | edit (e : Edit)
  | save

/-- The workspace and the store after a move in the tree of a node, if it succeeds. -/
def Workspace.move (root : NodeId) (state : Workspace × Store) : Move → Option (Workspace × Store)
  | .edit e => (state.1.edit root e).map fun w => (w, state.2)
  | .save =>
    match state.1.forest.find? root with
    | none => none
    | some r =>
      match (state.1.writeUnsaved (Step.storeWriter none) r).run state.2 with
      | ((.ok _, w), store) => some (w, store)
      | ((.error _, _), _) => none

/-- The root block of a file after some moves, with the workspace it is open in and the store, if
the file can be read and all moves succeed. -/
def workFile (source : SourceFile) (policy : Policy) (moves : List Move) :
    Option (Tree × Workspace × Store) := do
  let document ← (Fragment.read source).toOption
  let (root, w) ← (Workspace.empty.openDocument document policy).toOption
  let (w, store) ← moves.foldlM (Workspace.move root.id) (w, Store.empty)
  let root ← w.forest.find? root.id
  return (root, w, store)

/-- The text that is stored for a file, if any, when the changes are saved after some moves. -/
def finalText (source : SourceFile) (policy : Policy) (moves : List Move) :
    Option (Option String) :=
  (workFile source policy (moves ++ [.save])).map fun (_, _, store) => store.get? source.path

/-- The sheet of a document, and the text that was last stored for it. -/
@[ext]
structure Desk where
  sheet : Sheet
  stored : Option String

namespace Desk

/-- The effect of a save: changes are stored and forgotten. -/
def saved (d : Desk) : Desk where
  sheet := ⟨d.sheet.tree.settled, d.sheet.next⟩
  stored := if d.sheet.tree.core.dirty then some (d.sheet.tree.renderAfter 0 .nothing) else d.stored

/-- The effect of a move, if it succeeds. -/
def move (d : Desk) : Move → Option Desk
  | .edit e => (d.sheet.edit e).map fun s => ⟨s, d.stored⟩
  | .save => some d.saved

/-- A document that was opened, of which nothing is stored. -/
def opened (document : Fragment) (policy : Policy) : Desk := ⟨Sheet.opened document policy, none⟩

/-- The text that is stored, if any, when the changes are saved after some moves. -/
def finalText (d : Desk) (moves : List Move) : Option (Option String) :=
  (moves.foldlM move d).map fun d => d.saved.stored

/-- The desk is that of the document open in the workspace, whose texts are in the store. -/
structure Follows (document : Fragment) (d : Desk) (state : Workspace × Store) : Prop where
  sheet : d.sheet.Follows state.1
  isKept : d.sheet.tree.IsKept document
  files : state.2.files = d.stored.toList.map fun text => (document.source.path, text)

end Desk

theorem Tree.IsGrown.settled {path : Path} {t : Tree} (h : t.IsGrown path) :
    t.settled.IsGrown path := by
  refine ⟨?_, ?_, fun hblock => ?_⟩ <;> rw [Tree.settled_core]
  · exact h.path_eq
  · exact h.isDocument_eq
  · exact h.hasTags (by rwa [Tree.settled_isBlock] at hblock)

/-- A document without pending changes is flagged and grown if it was so before. -/
theorem Tree.IsKept.settled {document : Fragment} {t : Tree} (h : t.IsKept document) :
    t.settled.IsKept document := by
  refine ⟨?_, fun u hu => ?_⟩
  · obtain ⟨core, children, standing, rfl, horigin, hpath, hgrown⟩ := h.isDocumentWith
    refine ⟨core.clean, children.map Tree.settled, standing, Tree.settled_block .., horigin, hpath,
      fun u hu => ?_⟩
    rw [Forest.nodes_settled] at hu
    obtain ⟨v, hv, rfl⟩ := List.mem_map.1 hu
    exact (hgrown v hv).settled
  · rw [Tree.nodes_settled] at hu
    obtain ⟨v, hv, rfl⟩ := List.mem_map.1 hu
    rw [Tree.IsFlagged, Tree.settled_core, Tree.settled_children, List.any_map]
    simp [Core.clean, Function.comp_def]

namespace Desk

variable {document : Fragment} {d : Desk} {state : Workspace × Store}

/-- A save in the workspace is one on the desk. -/
theorem Follows.save (h : d.Follows document state) (hkind : document.kind = .document) :
    ∃ state', Workspace.move 0 state .save = some state' ∧ d.saved.Follows document state' := by
  obtain ⟨⟨r, hw, hsheet⟩, hkept, hfiles⟩ := h
  have htree : d.sheet.tree = r.forget := by rw [hsheet]
  have hcore : r.core = d.sheet.tree.core := by rw [htree, Tree.forget_core]
  obtain ⟨core, children, standing, hblock, horigin, hpath, hgrown⟩ := hkept.isDocumentWith
  have hpaths : ∀ u ∈ r.forget.nodes, u.core.path = document.source.path := by
    intro u hu
    rw [← htree, hblock, Tree.nodes] at hu
    rcases List.mem_cons.1 hu with rfl | hu
    · exact hpath
    · exact (hgrown u hu).path_eq
  have hdocument : r.core.origin.isDocument = true := by
    rw [hcore, hblock, Tree.core, horigin, Origin.isDocument_parsed hkind]
  -- what nodes remember has no part in the text that is stored
  have htext : state.1.forest.render [r] = d.sheet.tree.renderAfter 0 .nothing := by
    rw [htree]
    exact Forest.render_of_forget _ (by rw [← htree, hblock]) horigin hkind
  obtain ⟨files, w', r', hwrite, hw', hnext, hforget⟩ :=
    hw.writeUnsaved (htree ▸ hkept.isFlagged) hpaths hdocument state.2
  rw [htext, hcore] at hwrite
  refine ⟨(w', if d.sheet.tree.core.dirty then
      state.2.put document.source.path (d.sheet.tree.renderAfter 0 .nothing) else state.2),
    ?_, ⟨r', hw', ?_⟩, hkept.settled, ?_⟩
  · rw [Workspace.move, hw.find?_root]
    simp only [hwrite]
  · simp only [saved, hforget, hnext, hsheet]
  · simp only [saved]
    split
    · -- the text is put in the place of the last one, or is the first one of the store
      cases hstored : d.stored with
      | none => simp [Store.put, hfiles, hstored, Store.putIn]
      | some text => simp [Store.put, hfiles, hstored, Store.putIn, Path.compare_self]
    · exact hfiles

/-- A move succeeds in the workspace when it does on the desk, and with the same effect. -/
theorem Follows.move (h : d.Follows document state) (hkind : document.kind = .document) (m : Move) :
    Option.Rel (fun state' d' => Follows document d' state') (Workspace.move 0 state m)
      (d.move m) := by
  cases m with
  | save =>
    obtain ⟨state', hmove, hfollows⟩ := h.save hkind
    rw [hmove]
    exact .some hfollows
  | edit e =>
    have hedit := h.sheet.edit e
    rw [Workspace.move, Desk.move]
    cases hs : d.sheet.edit e with
    | none =>
      rw [hs] at hedit
      cases hw : state.1.edit 0 e with
      | none => exact .none
      | some w => rw [hw] at hedit; cases hedit
    | some s =>
      rw [hs] at hedit
      cases hw : state.1.edit 0 e with
      | none => rw [hw] at hedit; cases hedit
      | some w =>
        rw [hw] at hedit
        cases hedit with
        | some hfollows =>
          refine .some ⟨hfollows, ⟨?_, Sheet.isFlagged_edit h.isKept.isFlagged hs⟩, h.files⟩
          exact (Edit.keeps_isGrown e document).isDocumentWith h.isKept.isDocumentWith hs

/-- A run of moves succeeds in the workspace when it does on the desk, and with the same effect. -/
theorem Follows.run (h : d.Follows document state) (hkind : document.kind = .document)
    (moves : List Move) :
    Option.Rel (fun state' d' => Follows document d' state')
      (moves.foldlM (Workspace.move 0) state) (moves.foldlM Desk.move d) :=
  rel_foldlM (R := fun state' d' => Follows document d' state')
    (fun m hfollows => hfollows.move hkind m) h moves

end Desk

/-! ## Working on a file -/

section

variable {source : SourceFile} {policy : Policy} {document : Fragment}

/-- A document that was read is opened on its desk. -/
theorem Desk.follows_opened {root : Tree} {w : Workspace}
    (hread : Fragment.read source = .ok document)
    (hopen : Workspace.empty.openDocument document policy = .ok (root, w)) :
    (Desk.opened document policy).Follows document (w, Store.empty) ∧
      document.kind = .document ∧ document.source = source ∧ root.id = 0 := by
  obtain ⟨p, -, -, hshows⟩ := Fragment.exists_page_of_read hread
  obtain ⟨htended, hsheet⟩ := Sheet.follows_opened hopen
  exact ⟨⟨⟨root, htended, hsheet⟩, hshows.isKept_opened policy, rfl⟩, hshows.kind_eq,
    hshows.parts.source_eq, htended.first⟩

/-- The text of the desk is the one in the store. -/
theorem Desk.Follows.get?_eq {d : Desk} {state : Workspace × Store} (h : d.Follows document state) :
    state.2.get? document.source.path = d.stored := by
  rw [Store.get?, h.files]
  cases d.stored with
  | none => rfl
  | some text => simp [Path.beq_refl]

theorem Desk.finalText_eq_map (d : Desk) (moves : List Move) :
    d.finalText moves = ((moves ++ [Move.save]).foldlM Desk.move d).map Desk.stored := by
  rw [Desk.finalText, List.foldlM_append]
  cases moves.foldlM Desk.move d <;> rfl

/-- The final text of a file is that of its desk. -/
theorem finalText_eq {root : Tree} {w : Workspace}
    (hread : (Fragment.read source).toOption = some document)
    (hopen : (Workspace.empty.openDocument document policy).toOption = some (root, w))
    (moves : List Move) :
    finalText source policy moves = (Desk.opened document policy).finalText moves := by
  obtain ⟨hfollows, hkind, hsource, hroot⟩ :=
    Desk.follows_opened (eq_ok_of_toOption hread) (eq_ok_of_toOption hopen)
  have hrel := hfollows.run hkind (moves ++ [.save])
  rw [Desk.finalText_eq_map]
  simp only [finalText, workFile, hread, hopen, hroot, Option.bind_eq_bind, Option.bind_some]
  generalize (moves ++ [Move.save]).foldlM (Workspace.move 0) (w, Store.empty) = x at hrel ⊢
  generalize (moves ++ [Move.save]).foldlM Desk.move (Desk.opened document policy) = y at hrel ⊢
  cases hrel with
  | none => rfl
  | some h =>
    obtain ⟨r, htended, -⟩ := h.sheet
    have hget := h.get?_eq
    rw [hsource] at hget
    simp [htended.find?_root, hget]

/-- After moves that fail there is no final text. -/
theorem finalText_append_of_workFile_eq_none {moves : List Move}
    (h : workFile source policy moves = none) (later : List Move) :
    finalText source policy (moves ++ later) = none := by
  cases hread : (Fragment.read source).toOption with
  | none => simp [finalText, workFile, hread]
  | some document =>
    cases hopen : (Workspace.empty.openDocument document policy).toOption with
    | none => simp [finalText, workFile, hread, hopen]
    | some opened =>
      obtain ⟨root, w⟩ := opened
      obtain ⟨hfollows, hkind, -, hroot⟩ :=
        Desk.follows_opened (eq_ok_of_toOption hread) (eq_ok_of_toOption hopen)
      have hrel := hfollows.run hkind moves
      simp only [workFile, hread, hopen, hroot, Option.bind_eq_bind, Option.bind_some] at h
      rw [finalText_eq hread hopen, Desk.finalText, List.foldlM_append]
      generalize moves.foldlM (Workspace.move 0) (w, Store.empty) = x at hrel h
      generalize moves.foldlM Desk.move (Desk.opened document policy) = y at hrel ⊢
      cases hrel with
      | none => rfl
      | some hd =>
        obtain ⟨r, htended, -⟩ := hd.sheet
        simp [htended.find?_root] at h

/-- A file that was worked on is followed by its desk, and its final text is that of the desk. -/
theorem exists_desk_of_workFile {moves : List Move} {r : Tree} {w : Workspace} {store : Store}
    (h : workFile source policy moves = some (r, w, store)) :
    ∃ document d, moves.foldlM Desk.move (Desk.opened document policy) = some d ∧
      d.Follows document (w, store) ∧ w.Tended r ∧ d.sheet = ⟨r.forget, w.next⟩ ∧
      document.kind = .document ∧
      ∀ later, finalText source policy later = (Desk.opened document policy).finalText later := by
  unfold workFile at h
  obtain ⟨document, hread, h⟩ := Option.bind_eq_some_iff.1 h
  obtain ⟨⟨root, w₀⟩, hopen, h⟩ := Option.bind_eq_some_iff.1 h
  obtain ⟨⟨w', store'⟩, hrun, h⟩ := Option.bind_eq_some_iff.1 h
  obtain ⟨r', hr', h⟩ := Option.bind_eq_some_iff.1 h
  obtain ⟨rfl, hstate⟩ := Prod.mk.inj (Option.some.inj h)
  obtain ⟨rfl, rfl⟩ := Prod.mk.inj hstate
  obtain ⟨hfollows, hkind, hsource, hroot⟩ :=
    Desk.follows_opened (eq_ok_of_toOption hread) (eq_ok_of_toOption hopen)
  simp only [hroot] at hrun hr'
  -- the run succeeds in the workspace, so it does on the desk
  have hrel := hfollows.run hkind moves
  rw [hrun] at hrel
  generalize hd : moves.foldlM Desk.move (Desk.opened document policy) = d at hrel
  cases hrel with
  | some hfollows' =>
    rename_i d
    obtain ⟨r'', htended, hsheet⟩ := hfollows'.sheet
    obtain rfl : r'' = r' := by
      have hfind := htended.find?_root
      rw [hr'] at hfind
      exact (Option.some.inj hfind).symm
    exact ⟨document, d, hd, hfollows', htended, hsheet, hkind, finalText_eq hread hopen⟩

end

end HttpdConf
