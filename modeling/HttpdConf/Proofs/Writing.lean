import HttpdConf.Proofs.PathOrder
import HttpdConf.Proofs.PendingFiles

/-!
# Writing files

A write hands the unsaved files of a node to a writer, one after the other, as they look from the
root of the node's tree. When all are taken, their changes are settled in the tree of the root;
otherwise no flag changes at all. Settling goes down through dirty nodes only, and misses nothing,
because a clean node has nothing modified in it.

## Main definitions

* `Writer.call`, `Writer.Takes`, `Writer.FailsAmong`: what a writer does with some files
* `Workspace.Writes`: how a write can end, and what it leaves
* `Tree.SettlesTo`: what becomes of a node when files are settled

## Main results

* `Workspace.writes_writeUnsaved`: every write ends in one of these ways
* `Tree.own_settle`, `Tree.dirty_settle`: the flags of a settled tree
* `Workspace.Sound.exists_settlesTo`: what becomes of all nodes when files are settled
* `Workspace.writeUnsaved_of_reached`: what a write does to a node that its root reaches
-/

namespace HttpdConf

variable {σ : Type} {writer : Writer (StateM σ)} {s s' : σ}

/-! ## Calls of a writer -/

namespace Writer

/-- A call of a writer in some state: it is handed the nodes of a file. -/
def call (writer : Writer (StateM σ)) (f : Forest) (path : Path) (nodes : List Tree) (s : σ) :
    Except Error Unit × σ :=
  Prod.map Prod.fst id (Id.run ((writer.write path f nodes).run s))

@[simp]
theorem call_ofText (put : Path → String → StateM σ (Except Error Unit)) (f : Forest) (path : Path)
    (nodes : List Tree) (s : σ) :
    (ofText put).call f path nodes s = Id.run ((put path (f.render nodes)).run s) := rfl

/-- The writer takes files one after the other, each with its nodes. -/
inductive Takes (writer : Writer (StateM σ)) (f : Forest) (nodes : Path → List Tree) :
    List Path → σ → σ → Prop
  | nil (s : σ) : Takes writer f nodes [] s s
  | cons {path : Path} {rest : List Path} {s s₁ s' : σ}
      (hcall : writer.call f path (nodes path) s = (.ok (), s₁))
      (hrest : Takes writer f nodes rest s₁ s') : Takes writer f nodes (path :: rest) s s'

/-- The writer takes files until it fails with one of them. -/
def FailsAmong (writer : Writer (StateM σ)) (f : Forest) (nodes : Path → List Tree)
    (files : List Path) (s : σ) (e : Error) (s' : σ) : Prop :=
  ∃ before path after s₁, files = before ++ path :: after ∧ writer.Takes f nodes before s s₁ ∧
    writer.call f path (nodes path) s₁ = (.error e, s')

end Writer

namespace Workspace

section

variable {f : Forest} {root : Tree} {path : Path} {files : List Path}
  {result : Except Error Unit} {listed : List NodeId}

/-- The first of some files fails, or it is taken and the others come next. -/
theorem writeFiles_cons_cases
    (h : Id.run ((writeFiles writer f root (path :: files)).run s) = ((result, listed), s')) :
    (∃ e, result = .error e ∧ writer.call f path (root.fileRoots path) s = (.error e, s')) ∨
    ∃ s₁ more, writer.call f path (root.fileRoots path) s = (.ok (), s₁) ∧
      Id.run ((writeFiles writer f root files).run s₁) = ((result, more), s') := by
  rw [writeFiles] at h
  rw [Writer.call]
  simp only [StateT.run_bind, Id.run_bind] at h
  generalize Id.run ((writer.write path f (root.fileRoots path)).run s) = out at h ⊢
  obtain ⟨⟨answer, told⟩, s₁⟩ := out
  cases answer with
  | error e =>
    obtain ⟨hresult, rfl⟩ := Prod.mk.inj h
    exact .inl ⟨e, (Prod.mk.inj hresult).1.symm, rfl⟩
  | ok _ =>
    refine .inr ⟨s₁, (Id.run ((writeFiles writer f root files).run s₁)).1.2, rfl, ?_⟩
    simp only [StateT.run_bind, Id.run_bind] at h
    obtain ⟨hresult, hstate⟩ := Prod.mk.inj h
    rw [← (Prod.mk.inj hresult).1, ← hstate]

/-- Files are taken one after the other, until one fails. -/
theorem writeFiles_cases
    (h : Id.run ((writeFiles writer f root files).run s) = ((result, listed), s')) :
    (result = .ok () ∧ writer.Takes f root.fileRoots files s s') ∨
      ∃ e, result = .error e ∧ writer.FailsAmong f root.fileRoots files s e s' := by
  induction files generalizing s listed with
  | nil =>
    obtain ⟨hresult, rfl⟩ := Prod.mk.inj h
    exact .inl ⟨(Prod.mk.inj hresult).1.symm, .nil _⟩
  | cons path files ih =>
    rcases writeFiles_cons_cases h with ⟨e, he, hcall⟩ | ⟨s₁, more, hcall, hmore⟩
    · exact .inr ⟨e, he, [], path, files, s, rfl, .nil _, hcall⟩
    · rcases ih hmore with ⟨hok, htakes⟩ | ⟨e, he, before, failed, after, s₂, heq, htakes, hfail⟩
      · exact .inl ⟨hok, .cons hcall htakes⟩
      · refine .inr ⟨e, he, path :: before, failed, after, s₂, ?_, .cons hcall htakes, hfail⟩
        rw [heq, List.cons_append]

end

/-- What a writer is handed for a file when a node is written: the nodes of the file that are not
inside others of it, as they are found from the root of the node. -/
def fileNodes (w : Workspace) (t : Tree) (path : Path) : List Tree :=
  (w.forest.root t).fileRoots path

/-- The text of these nodes. -/
def fileText (w : Workspace) (t : Tree) (path : Path) : String :=
  w.forest.render (w.fileNodes t path)

/-- How a write of a node can end, and what it leaves. -/
inductive Writes (writer : Writer (StateM σ)) (w : Workspace) (t : Tree) (s : σ) :
    Except Error (List Path) → Workspace → σ → Prop
  | idle (blocks : List NodeId) (hfiles : t.unsavedFiles = []) :
      Writes writer w t s (.ok []) (w.list blocks) s
  | rootGone (blocks : List NodeId) (hfiles : t.unsavedFiles ≠ [])
      (hroot : (w.forest.root t).core.origin.isDocument = false) :
      Writes writer w t s (.error (.invalidConstruction .rootGone)) (w.list blocks) s
  | failed {e : Error} {s' : σ} (blocks : List NodeId)
      (hroot : (w.forest.root t).core.origin.isDocument = true)
      (hfails : writer.FailsAmong w.forest (w.fileNodes t) t.unsavedFiles s e s') :
      Writes writer w t s (.error e) (w.list blocks) s'
  | written {s' : σ} (blocks : List NodeId) (hfiles : t.unsavedFiles ≠ [])
      (hroot : (w.forest.root t).core.origin.isDocument = true)
      (htakes : writer.Takes w.forest (w.fileNodes t) t.unsavedFiles s s') :
      Writes writer w t s (.ok t.unsavedFiles)
        ⟨(w.forest.list blocks).update (w.forest.root t).id (Tree.settle t.unsavedFiles),
          w.next, w.journal⟩ s'

/-- Every write ends in one of these ways. -/
theorem writes_writeUnsaved {w w' : Workspace} {t : Tree} {result : Except Error (List Path)}
    (h : Id.run ((w.writeUnsaved writer t).run s) = ((result, w'), s')) :
    w.Writes writer t s result w' s' := by
  rw [writeUnsaved] at h
  simp only at h
  by_cases hfiles : t.unsavedFiles = []
  · rw [if_pos (by rw [hfiles]; rfl)] at h
    obtain ⟨hend, rfl⟩ := Prod.mk.inj h
    obtain ⟨rfl, rfl⟩ := Prod.mk.inj hend
    exact .idle _ hfiles
  · rw [if_neg (by rwa [List.isEmpty_iff])] at h
    cases hroot : (w.forest.root t).core.origin.isDocument with
    | false =>
      rw [if_pos (by rw [hroot]; rfl)] at h
      obtain ⟨hend, rfl⟩ := Prod.mk.inj h
      obtain ⟨rfl, rfl⟩ := Prod.mk.inj hend
      exact .rootGone _ hfiles hroot
    | true =>
      rw [if_neg (by rw [hroot]; simp)] at h
      simp only [StateT.run_bind, Id.run_bind] at h
      generalize hwrite : Id.run
        ((writeFiles writer w.forest (w.forest.root t) t.unsavedFiles).run s) = out at h
      obtain ⟨⟨answer, listed⟩, s₁⟩ := out
      rcases writeFiles_cases hwrite with ⟨rfl, htakes⟩ | ⟨e, rfl, hfails⟩
      · obtain ⟨hend, rfl⟩ := Prod.mk.inj h
        obtain ⟨rfl, rfl⟩ := Prod.mk.inj hend
        exact .written _ hfiles hroot htakes
      · obtain ⟨hend, rfl⟩ := Prod.mk.inj h
        obtain ⟨rfl, rfl⟩ := Prod.mk.inj hend
        exact .failed _ hroot hfails

end Workspace

/-! ## Settled trees -/

variable {w w' : Workspace} {t u v r : Tree} {f : Forest} {files : List Path}

/-- What a node has besides its dirty flag. -/
def Core.own (core : Core) : Core := { core with dirty := false }

/-- What is left of it when some files were written: a change of a file among them is saved. -/
def Core.ownAfter (files : List Path) (core : Core) : Core :=
  { core with dirty := false, modified := core.modified && !files.any (· == core.path) }

theorem Core.ownAfter_of_unmodified {core : Core} (h : core.modified = false) :
    core.ownAfter files = core.own := by
  simp [Core.ownAfter, Core.own, h]

mutual
/-- Settling files saves the changes of just the nodes of these files, although it goes down
through dirty nodes only. -/
theorem Tree.own_settle (files : List Path) (t : Tree) (h : ∀ u ∈ t.nodes, u.IsMarked) :
    (t.settle files).nodes.map (fun u => u.core.own) =
      t.nodes.map fun u => u.core.ownAfter files := by
  by_cases hdirty : t.core.dirty = true
  · match t with
    | .comment core text =>
      rw [Tree.settle, if_pos (show core.dirty = true from hdirty)]
      rfl
    | .directive core statement =>
      rw [Tree.settle, if_pos (show core.dirty = true from hdirty)]
      rfl
    | .block core statement children =>
      rw [Tree.settle, if_pos (show core.dirty = true from hdirty), Tree.nodes, Tree.nodes,
        List.map_cons, List.map_cons, Forest.own_settle files children
          fun v hv => h v (Tree.mem_nodes_of_mem_children hv)]
      rfl
  · -- nothing is modified below a clean node, so nothing is left to save there
    have hclean : t.core.dirty = false := Bool.eq_false_iff.2 hdirty
    rw [Tree.settle_of_clean hclean]
    apply List.map_congr_left
    intro u hu
    exact (Core.ownAfter_of_unmodified (t.modified_of_clean h hclean u hu)).symm

theorem Forest.own_settle (files : List Path) (f : Forest)
    (h : ∀ u ∈ Forest.nodes f, u.IsMarked) :
    (Forest.nodes (Forest.settle files f)).map (fun u => u.core.own) =
      (Forest.nodes f).map fun u => u.core.ownAfter files := by
  match f with
  | [] => simp [Forest.settle]
  | t :: f =>
    rw [Forest.settle, Forest.nodes_cons, Forest.nodes_cons, List.map_append, List.map_append,
      Tree.own_settle files t fun v hv => h v (by simp [hv]),
      Forest.own_settle files f fun v hv => h v (by simp [hv])]
end

/-- Below a node that is not dirty, nothing is dirty. -/
theorem Tree.clean_of_clean (h : ∀ u ∈ t.nodes, u.IsMarked) (hclean : t.core.dirty = false) :
    ∀ u ∈ t.nodes, u.core.dirty = false := by
  apply t.forall_nodes_of_children (P := fun u => u.core.dirty = false) _ hclean
  intro v hv hvclean x hx
  by_contra hdirty
  simp [(h v hv).children x hx (eq_true_of_ne_false hdirty)] at hvclean

theorem Tree.isFlagged_of_clean (h : ∀ u ∈ t.nodes, u.IsMarked) (hclean : t.core.dirty = false) :
    ∀ u ∈ t.nodes, u.IsFlagged := by
  intro u hu
  have hchildren : (u.children.any fun x => x.core.dirty) = false := by
    rw [List.any_eq_false]
    intro x hx
    have hx' : x ∈ t.nodes := Tree.mem_nodes_of_child hu hx
    simp [Tree.clean_of_clean h hclean x hx']
  rw [Tree.IsFlagged, Tree.clean_of_clean h hclean u hu, t.modified_of_clean h hclean u hu,
    hchildren]
  rfl

/-- A settled tree has no dirty node without a reason. -/
theorem Tree.isFlagged_settle (files : List Path) (t : Tree) (h : ∀ u ∈ t.nodes, u.IsMarked) :
    ∀ u ∈ (t.settle files).nodes, u.IsFlagged := by
  intro u hu
  rcases Tree.mem_nodes_settle t hu with ⟨v, hv, hclean, hu⟩ | ⟨v, -, -, hcore⟩
  · exact Tree.isFlagged_of_clean (fun x hx => h x ((Tree.nodes_sublist t hv).subset hx)) hclean
      u hu
  · rw [Tree.IsFlagged, hcore]
    rfl

/-- A node of a settled tree is dirty just if a node in it is modified. -/
theorem Tree.dirty_settle (h : ∀ u ∈ t.nodes, u.IsMarked) (hu : u ∈ (t.settle files).nodes) :
    u.core.dirty = u.nodes.any fun x => x.core.modified := by
  have hsub := Tree.nodes_sublist (t.settle files) hu
  cases hdirty : u.core.dirty with
  | true =>
    obtain ⟨x, hx, hmodified⟩ := u.exists_modified
      (fun x hx => t.isFlagged_settle files h x (hsub.subset hx)) hdirty
    symm
    exact List.any_eq_true.2 ⟨x, u.reached_sublist.subset hx, hmodified⟩
  | false =>
    have hmarked : ∀ x ∈ u.nodes, x.IsMarked := fun x hx =>
      t.isMarked_settle files h x (hsub.subset hx)
    symm
    rw [List.any_eq_false]
    intro x hx
    simp [u.modified_of_clean hmarked hdirty x hx]

/-- The unsaved files of a node are the set of the files of its modified nodes. -/
theorem Tree.unsavedFiles_eq_setOf (h : ∀ u ∈ t.nodes, u.IsMarked) :
    t.unsavedFiles =
      Path.setOf (((t.nodes.map fun u => u.core.own).filter Core.modified).map Core.path) := by
  rw [Tree.unsavedFiles, t.filter_modified_dirtyNodes h, Path.setOf, List.filter_map, List.map_map,
    List.foldl_map]
  rfl

theorem Tree.unsavedFiles_congr (ht : ∀ x ∈ t.nodes, x.IsMarked) (hu : ∀ x ∈ u.nodes, x.IsMarked)
    (h : t.nodes.map Tree.core = u.nodes.map Tree.core) : t.unsavedFiles = u.unsavedFiles := by
  have hown : ∀ v : Tree,
      (v.nodes.map fun x => x.core.own) = (v.nodes.map Tree.core).map Core.own := by
    intro v
    rw [List.map_map]
    rfl
  rw [Tree.unsavedFiles_eq_setOf ht, Tree.unsavedFiles_eq_setOf hu, hown, hown, h]

/-- Another spelling of a path is among the same files. -/
theorem Path.any_beq_congr {p q : Path} (h : p.compare q = .eq) (files : List Path) :
    files.any (· == p) = files.any (· == q) := by
  have hsame : p.components = q.components := by
    simpa using (show (p.components == q.components) = true from Path.beq_of_compare h)
  congr 1
  funext x
  change (x.components == p.components) = (x.components == q.components)
  rw [hsame]

/-- After files were settled in a tree, the others are unsaved as before. -/
theorem Tree.unsavedFiles_settle (h : ∀ u ∈ t.nodes, u.IsMarked) :
    (t.settle files).unsavedFiles = t.unsavedFiles.filter fun p => !files.any (· == p) := by
  rw [Tree.unsavedFiles_eq_setOf (t.isMarked_settle files h), Tree.unsavedFiles_eq_setOf h,
    t.own_settle files h, ← Path.setOf_filter]
  · congr 1
    rw [List.filter_map, List.filter_map, List.filter_map, List.filter_map, List.filter_filter,
      List.map_map, List.map_map]
    refine congrArg (List.map fun u : Tree => u.core.path) ?_
    apply List.filter_congr
    intro u _
    exact Bool.and_comm ..
  · intro p q hpq
    rw [Path.any_beq_congr hpq]

/-! ## What becomes of the nodes -/

/-- Looking leaves what all nodes have. -/
theorem Forest.cores_list (f : Forest) (blocks : List NodeId) :
    (Forest.nodes (f.list blocks)).map Tree.core = (Forest.nodes f).map Tree.core := by
  have hcores : ∀ k : Forest,
      (Forest.nodes k).map Tree.core = (Forest.nodes (k.map Tree.forget)).map Tree.core := by
    intro k
    rw [Forest.nodes_forget, List.map_map]
    exact List.map_congr_left fun t _ => t.forget_core.symm
  rw [hcores, Forest.forget_list, ← hcores]

theorem Tree.core_eq_of_forget_eq (h : u.forget = v.forget) : u.core = v.core := by
  rw [← u.forget_core, h, v.forget_core]

theorem Tree.cores_eq_of_forget_eq (h : u.forget = v.forget) :
    u.nodes.map Tree.core = v.nodes.map Tree.core := by
  have hcores : ∀ k : Tree, k.nodes.map Tree.core = k.forget.nodes.map Tree.core := by
    intro k
    rw [k.nodes_forget, List.map_map]
    exact List.map_congr_left fun t _ => t.forget_core.symm
  rw [hcores, h, ← hcores]

theorem Tree.bare_eq_of_forget_eq (h : u.forget = v.forget) : u.bare = v.bare := by
  rw [Tree.bare, Tree.bare, Tree.forget_settled, Tree.forget_settled, h]

/-- Looking leaves every node as it is, apart from what it remembers, and flags still agree. -/
theorem Forest.exists_mem_nodes_list (hmarked : ∀ t ∈ Forest.nodes f, t.IsMarked)
    (hu : u ∈ Forest.nodes f) (blocks : List NodeId) :
    ∃ v ∈ Forest.nodes (f.list blocks), v.forget = u.forget ∧ v.id = u.id ∧
      ∀ x ∈ v.nodes, x.IsMarked := by
  have hmem : u.forget ∈ Forest.nodes (f.map Tree.forget) := by
    rw [Forest.nodes_forget]
    exact List.mem_map_of_mem hu
  rw [← Forest.forget_list f blocks, Forest.nodes_forget] at hmem
  obtain ⟨v, hv, hforget⟩ := List.mem_map.1 hmem
  refine ⟨v, hv, hforget, congrArg Core.id (Tree.core_eq_of_forget_eq hforget), fun x hx => ?_⟩
  exact Forest.isMarked_list hmarked blocks x ((Forest.nodes_sublist _ hv).subset hx)

/-- Two trees that differ in flags and memories only have the same nodes. -/
theorem Tree.exists_of_bare_eq {x : Tree} (h : u.bare = v.bare) (hx : x ∈ u.nodes) :
    ∃ y ∈ v.nodes, x.bare = y.bare := by
  have hforest : [u].map Tree.bare = [v].map Tree.bare := by simp [h]
  obtain ⟨y, hy, hxy⟩ := Forest.exists_of_bare_eq hforest (by simpa using hx)
  exact ⟨y, by simpa using hy, hxy⟩

/-- Where a tree keeps all but flags and memories, the nodes with the numbers of its nodes are the
nodes in it. -/
theorem Forest.Tidy.mem_nodes_iff {f f' : Forest} (hf : f.Tidy) (hf' : f'.Tidy)
    (hu : u ∈ Forest.nodes f) (hr : r ∈ Forest.nodes f) {u' r' : Tree}
    (hu' : u' ∈ Forest.nodes f') (hr' : r' ∈ Forest.nodes f') (hbare : u'.bare = u.bare)
    (hrbare : r'.bare = r.bare) : u' ∈ r'.nodes ↔ u ∈ r.nodes := by
  constructor
  · intro hmem
    obtain ⟨y, hy, hyu⟩ := Tree.exists_of_bare_eq hrbare hmem
    have hid := Tree.id_eq_of_bare_eq (hyu.symm.trans hbare)
    rwa [← hf.eq_of_id_eq ((Forest.nodes_sublist f hr).subset hy) hu hid]
  · intro hmem
    obtain ⟨y, hy, hyu⟩ := Tree.exists_of_bare_eq hrbare.symm hmem
    have hid := Tree.id_eq_of_bare_eq (hyu.symm.trans hbare.symm)
    rwa [← hf'.eq_of_id_eq ((Forest.nodes_sublist f' hr').subset hy) hu' hid]

/-- A change of the flags in one tree leaves every node, with what it has if it is in another
tree. -/
theorem Forest.Tidy.exists_mem_nodes_update (hf : f.Tidy) {g : Tree → Tree}
    (hg : ∀ v, (g v).bare = v.bare) (hr : r ∈ Forest.nodes f) (hu : u ∈ Forest.nodes f) :
    ∃ u' ∈ Forest.nodes (f.update r.id g), u'.bare = u.bare ∧ (u ∈ r.nodes ↔ u' ∈ (g r).nodes) ∧
      (u ∉ r.nodes → u'.core = u.core) := by
  have hbare : (f.update r.id g).map Tree.bare = f.map Tree.bare := Forest.bare_update hg f
  have htidy := hf.of_bare_eq hbare
  obtain ⟨u', hu', hbareu⟩ := Forest.exists_of_bare_eq hbare.symm hu
  have hmem := hf.mem_nodes_iff htidy hu hr hu' (Forest.mem_nodes_update f hf.nodup hr)
    hbareu.symm (hg r)
  refine ⟨u', hu', hbareu.symm, hmem.symm, fun hout => ?_⟩
  rcases Forest.exists_of_mem_nodes_update (R := fun _ _ => True) (fun _ => trivial)
    (fun _ => trivial) f hu' with ⟨v, hv, hcore, -⟩ | ⟨v, hv, hid, hin⟩
  · have hvid : v.id = u.id := by rw [Tree.id_eq_of_bare_eq hbareu, Tree.id, Tree.id, hcore]
    rw [hcore, hf.eq_of_id_eq hv hu hvid]
  · rw [hf.eq_of_id_eq hv hr hid] at hin
    exact absurd (hmem.1 hin) hout

/-- What becomes of a node when files are settled in the tree of a root: in the tree of the root,
the changes of these files are saved and just the nodes that still have a change in them stay
dirty; in other trees nothing happens. -/
structure Tree.SettlesTo (files : List Path) (root u u' : Tree) : Prop where
  bare : u'.bare = u.bare
  outside : u ∉ root.nodes → u'.core = u.core
  modified : u ∈ root.nodes → u'.core.modified = (u.core.modified && !files.any (· == u.core.path))
  dirty : u ∈ root.nodes → u'.core.dirty = u'.nodes.any fun x => x.core.modified

theorem Tree.SettlesTo.id {u' : Tree} (h : Tree.SettlesTo files r u u') : u'.id = u.id :=
  Tree.id_eq_of_bare_eq h.bare

namespace Workspace.Sound

variable (hw : w.Sound) (hmarked : ∀ t ∈ Forest.nodes w.forest, t.IsMarked) (blocks : List NodeId)
  (files : List Path)

include hw

theorem tidy_list : (w.forest.list blocks).Tidy := hw.tidy.of_bare_eq (Forest.bare_list ..)

theorem tidy_settled (id : NodeId) :
    Forest.Tidy ((w.forest.list blocks).update id (Tree.settle files)) :=
  (hw.tidy_list blocks).of_bare_eq (Forest.bare_update (Tree.bare_settle files) _)

include hmarked

/-- Files are settled in the tree of a root, node by node. -/
theorem exists_settlesTo (hr : r ∈ Forest.nodes w.forest) (hu : u ∈ Forest.nodes w.forest) :
    ∃ u', Forest.find? ((w.forest.list blocks).update r.id (Tree.settle files)) u.id = some u' ∧
      Tree.SettlesTo files r u u' := by
  have htidy := hw.tidy_list blocks
  obtain ⟨r₁, hr₁, hforget, hrid, hmarked₁⟩ := Forest.exists_mem_nodes_list hmarked hr blocks
  obtain ⟨u₁, hu₁, huforget, huid, -⟩ := Forest.exists_mem_nodes_list hmarked hu blocks
  have hmem : u₁ ∈ r₁.nodes ↔ u ∈ r.nodes := hw.tidy.mem_nodes_iff htidy hu hr hu₁ hr₁
    (Tree.bare_eq_of_forget_eq huforget) (Tree.bare_eq_of_forget_eq hforget)
  have hcore := Tree.core_eq_of_forget_eq huforget
  obtain ⟨u', hu', hbare, hin, hout⟩ :=
    htidy.exists_mem_nodes_update (Tree.bare_settle files) hr₁ hu₁
  rw [← hrid, ← huid, ← Tree.id_eq_of_bare_eq hbare]
  refine ⟨u', (hw.tidy_settled blocks files _).find?_eq hu',
    hbare.trans (Tree.bare_eq_of_forget_eq huforget), ?_, ?_, ?_⟩
  · intro hu
    rw [hout fun hu₁ => hu (hmem.1 hu₁), hcore]
  · intro hu
    -- the node that the flag comes from has the same number
    have hown : u'.core.own ∈ (r₁.settle files).nodes.map fun x => x.core.own :=
      List.mem_map_of_mem (f := fun x : Tree => x.core.own) (hin.1 (hmem.2 hu))
    rw [r₁.own_settle files hmarked₁] at hown
    obtain ⟨x, hx, hxown⟩ := List.mem_map.1 hown
    have hxid : x.id = u₁.id := (congrArg Core.id hxown).trans (Tree.id_eq_of_bare_eq hbare)
    obtain rfl := htidy.eq_of_id_eq ((Forest.nodes_sublist _ hr₁).subset hx) hu₁ hxid
    rw [← hcore]
    exact (congrArg Core.modified hxown).symm
  · intro hu
    exact Tree.dirty_settle hmarked₁ (hin.1 (hmem.2 hu))

/-- The root of a settled tree has the other files unsaved. -/
theorem unsavedFiles_settled (hr : r ∈ Forest.nodes w.forest) :
    ∃ r', Forest.find? ((w.forest.list blocks).update r.id (Tree.settle files)) r.id = some r' ∧
      r'.unsavedFiles = r.unsavedFiles.filter fun p => !files.any (· == p) := by
  obtain ⟨r₁, hr₁, hforget, hrid, hmarked₁⟩ := Forest.exists_mem_nodes_list hmarked hr blocks
  have hmarkedr : ∀ x ∈ r.nodes, x.IsMarked := fun x hx =>
    hmarked x ((Forest.nodes_sublist _ hr).subset hx)
  have hfind := (hw.tidy_settled blocks files r₁.id).find?_eq
    (Forest.mem_nodes_update _ (hw.tidy_list blocks).nodup hr₁)
  rw [Tree.id_eq_of_bare_eq (r₁.bare_settle files), hrid] at hfind
  refine ⟨_, hfind, ?_⟩
  rw [Tree.unsavedFiles_settle hmarked₁,
    Tree.unsavedFiles_congr hmarked₁ hmarkedr (Tree.cores_eq_of_forget_eq hforget)]

/-- A node whose files were all settled has no change left. -/
theorem exists_unmodified_settled (hr : r ∈ Forest.nodes w.forest) (hu : u ∈ r.nodes) :
    ∃ u', Forest.find? ((w.forest.list blocks).update r.id (Tree.settle u.unsavedFiles)) u.id =
        some u' ∧ Tree.SettlesTo u.unsavedFiles r u u' ∧
      ∀ x ∈ u'.nodes, x.core.modified = false := by
  have hin : ∀ x ∈ r.nodes, x ∈ Forest.nodes w.forest := (Forest.nodes_sublist _ hr).subset
  obtain ⟨u', hfind, hsettles⟩ := hw.exists_settlesTo hmarked blocks u.unsavedFiles hr (hin u hu)
  refine ⟨u', hfind, hsettles, fun x' hx' => ?_⟩
  obtain ⟨x, hx, hbare⟩ := Tree.exists_of_bare_eq hsettles.bare hx'
  have hxr : x ∈ r.nodes := (Tree.nodes_sublist r hu).subset hx
  obtain ⟨y, hfindy, hy⟩ := hw.exists_settlesTo hmarked blocks u.unsavedFiles hr (hin x hxr)
  -- the node that `x` settles to is `x'`
  have hyx : y = x' := (hw.tidy_settled blocks u.unsavedFiles r.id).eq_of_id_eq
    (Forest.mem_nodes_of_find? hfindy).1
    ((Forest.nodes_sublist _ (Forest.mem_nodes_of_find? hfind).1).subset hx')
    (hy.id.trans (Tree.id_eq_of_bare_eq hbare).symm)
  rw [← hyx, hy.modified hxr]
  cases hmodified : x.core.modified with
  | false => rfl
  | true =>
    have hany : u.unsavedFiles.any (· == x.core.path) = true := by
      rw [Tree.any_unsavedFiles fun v hv => hmarked v (hin v ((Tree.nodes_sublist r hu).subset hv))]
      exact List.any_eq_true.2 ⟨x, hx, by simp [hmodified, Path.beq_refl]⟩
    rw [hany]
    rfl

/-- Looking leaves the unsaved files of every node. -/
theorem unsavedFiles_list (hu : u ∈ Forest.nodes w.forest) :
    ∃ u', (w.list blocks).forest.find? u.id = some u' ∧ u'.core = u.core ∧
      u'.unsavedFiles = u.unsavedFiles := by
  obtain ⟨u', hu', hforget, hid, hmarked'⟩ := Forest.exists_mem_nodes_list hmarked hu blocks
  refine ⟨u', hid ▸ (hw.tidy_list blocks).find?_eq hu', Tree.core_eq_of_forget_eq hforget, ?_⟩
  apply Tree.unsavedFiles_congr hmarked' _ (Tree.cores_eq_of_forget_eq hforget)
  exact fun x hx => hmarked x ((Forest.nodes_sublist _ hu).subset hx)

end Workspace.Sound

/-- The root of a live node is alive. -/
theorem Forest.Tidy.root_mem (hf : f.Tidy) (ht : t ∈ Forest.nodes f) :
    f.root t ∈ Forest.nodes f := by
  rw [Forest.root]
  cases hlast : (f.lineage t.core).getLast? with
  | none => exact ht
  | some top => exact (hf.mem_lineageUpTo (List.mem_of_getLast? hlast)).1

theorem Tree.ascending_unsavedFiles (t : Tree) : Path.Ascending t.unsavedFiles := by
  rw [Tree.unsavedFiles, ← List.foldl_map (f := fun u : Tree => u.core.path)
    (g := fun files p => p.insert files)]
  exact Path.ascending_setOf _

/-- A node is in a tree that has its number. -/
theorem Forest.Tidy.mem_nodes_of_any (hf : f.Tidy) (ht : t ∈ Forest.nodes f)
    (hr : r ∈ Forest.nodes f) (h : r.nodes.any (·.id == t.id) = true) : t ∈ r.nodes := by
  obtain ⟨u, hu, hid⟩ := List.any_eq_true.1 h
  rwa [← hf.eq_of_id_eq ((Forest.nodes_sublist f hr).subset hu) ht (beq_iff_eq.1 hid)]

namespace Workspace

/-- What a write does, in any workspace that operations lead to, to a node that the document at its
root reaches. Without unsaved files nothing happens. Otherwise the writer is handed the unsaved
files in ascending order, each with its nodes as they are found from the root, until it fails with
one of them; then no flag changes. When it takes all, just their changes are saved, and the root
has the other files unsaved. -/
theorem writeUnsaved_of_reached {operations : List Operation} {b : Tree}
    {result : Except Error (List Path)} (hw : w = empty.run operations)
    (hb : b ∈ Forest.nodes w.forest) (hroot : (w.forest.root b).core.origin.isDocument = true)
    (hreached : b ∈ (w.forest.root b).nodes)
    (hwrite : Id.run ((w.writeUnsaved writer b).run s) = ((result, w'), s')) :
    (b.unsavedFiles = [] → result = .ok [] ∧ s' = s ∧
      (Forest.nodes w'.forest).map Tree.core = (Forest.nodes w.forest).map Tree.core) ∧
    (b.unsavedFiles ≠ [] → Path.Ascending b.unsavedFiles ∧
      ((∃ e, result = .error e ∧
          writer.FailsAmong w.forest (w.fileNodes b) b.unsavedFiles s e s' ∧
          (Forest.nodes w'.forest).map Tree.core = (Forest.nodes w.forest).map Tree.core ∧
          ∃ b', w'.forest.find? b.id = some b' ∧ b'.unsavedFiles = b.unsavedFiles) ∨
        (result = .ok b.unsavedFiles ∧
          writer.Takes w.forest (w.fileNodes b) b.unsavedFiles s s' ∧
          (∀ u ∈ Forest.nodes w.forest, ∃ u', w'.forest.find? u.id = some u' ∧
            Tree.SettlesTo b.unsavedFiles (w.forest.root b) u u') ∧
          (∃ root', w'.forest.find? (w.forest.root b).id = some root' ∧ root'.unsavedFiles =
            (w.forest.root b).unsavedFiles.filter fun p => !b.unsavedFiles.any (· == p)) ∧
          ∃ b', w'.forest.find? b.id = some b' ∧ b'.unsavedFiles = []))) := by
  have hsound : w.Sound := hw ▸ Sound.empty.run operations
  have hmarked : ∀ t ∈ Forest.nodes w.forest, t.IsMarked :=
    hw ▸ isMarked_run Sound.empty (by simp [empty]) operations
  have hr := hsound.tidy.root_mem hb
  cases writes_writeUnsaved hwrite with
  | idle blocks hfiles =>
    exact ⟨fun _ => ⟨rfl, rfl, Forest.cores_list ..⟩, fun h => absurd hfiles h⟩
  | rootGone blocks hfiles hgone => simp [hroot] at hgone
  | failed blocks _ hfails =>
    constructor
    · intro hnone
      obtain ⟨before, path, after, -, heq, -⟩ := hfails
      simp [hnone] at heq
    · refine fun _ => ⟨b.ascending_unsavedFiles, .inl ⟨_, rfl, hfails, Forest.cores_list .., ?_⟩⟩
      obtain ⟨b', hfind, -, hfiles⟩ := hsound.unsavedFiles_list hmarked blocks hb
      exact ⟨b', hfind, hfiles⟩
  | written blocks hfiles _ htakes =>
    refine ⟨fun h => absurd h hfiles, fun _ => ⟨b.ascending_unsavedFiles, .inr ⟨rfl, htakes,
      fun u hu => hsound.exists_settlesTo hmarked blocks _ hr hu,
      hsound.unsavedFiles_settled hmarked blocks _ hr, ?_⟩⟩⟩
    obtain ⟨b', hfind, -, hnone⟩ := hsound.exists_unmodified_settled hmarked blocks hr hreached
    exact ⟨b', hfind, Tree.unsavedFiles_of_unmodified hnone⟩

/-- A block and a file that is included in it are changed, and another included file elsewhere. A
writer that fails with the second file of the block leaves all flags, and when both files are taken
the root has the third one unsaved. -/
theorem writeUnsaved_of_reached_included :
    ∃ document w b, DocumentSpec.assemble (.file ⟨⟨"site.conf"⟩, "<A>\nB 1\n</A>\n<C>\n</C>\n"⟩
        [(⟨[0], 1, false⟩, .file ⟨⟨"a.conf"⟩, "D 1\n"⟩ []),
          (⟨[1], 0, false⟩, .file ⟨⟨"z.conf"⟩, "E 1\n"⟩ [])]) = .ok document ∧
      w = empty.run [
        .construct ⟨none, none, false, some (.parsed document), none⟩ (.block "" []) true,
        .edit 0 (.setParameters 2 ["2"]), .edit 0 (.setParameters 3 ["2"]),
        .edit 0 (.setParameters 5 ["2"])] ∧
      w.forest.find? 1 = some b ∧ b.unsavedFiles.map Path.text = ["a.conf", "site.conf"] ∧
      (∃ e w' store,
        Id.run ((w.writeUnsaved (Step.storeWriter (some ⟨"site.conf"⟩)) b).run Store.empty) =
          ((.error e, w'), store) ∧
        (Forest.nodes w'.forest).map Tree.core = (Forest.nodes w.forest).map Tree.core) ∧
      ∃ w' store root', Id.run ((w.writeUnsaved (Step.storeWriter none) b).run Store.empty) =
          ((.ok b.unsavedFiles, w'), store) ∧
        w'.forest.find? (w.forest.root b).id = some root' ∧ root'.unsavedFiles =
          (w.forest.root b).unsavedFiles.filter fun p => !b.unsavedFiles.any (· == p) := by
  have hfacts : ((DocumentSpec.assemble (.file
      ⟨⟨"site.conf"⟩, "<A>\nB 1\n</A>\n<C>\n</C>\n"⟩
      [(⟨[0], 1, false⟩, .file ⟨⟨"a.conf"⟩, "D 1\n"⟩ []),
        (⟨[1], 0, false⟩, .file ⟨⟨"z.conf"⟩, "E 1\n"⟩ [])])).toOption.any fun document =>
      let w := empty.run [
        .construct ⟨none, none, false, some (.parsed document), none⟩ (.block "" []) true,
        .edit 0 (.setParameters 2 ["2"]), .edit 0 (.setParameters 3 ["2"]),
        .edit 0 (.setParameters 5 ["2"])]
      (w.forest.find? 1).any fun b =>
        b.unsavedFiles.map Path.text == ["a.conf", "site.conf"] &&
        (w.forest.root b).core.origin.isDocument && (w.forest.root b).nodes.any (·.id == b.id) &&
        !(Id.run ((w.writeUnsaved (Step.storeWriter (some ⟨"site.conf"⟩)) b).run
          Store.empty)).1.1.isOk &&
        (Id.run ((w.writeUnsaved (Step.storeWriter none) b).run Store.empty)).1.1.isOk) = true := by
    decide +kernel
  obtain ⟨document, hread, hfacts⟩ := (Option.any_eq_true ..).1 hfacts
  obtain ⟨b, hfind, hfacts⟩ := (Option.any_eq_true ..).1 hfacts
  generalize hw : empty.run _ = w at hfind hfacts
  simp only [Bool.and_eq_true, beq_iff_eq, Bool.not_eq_true'] at hfacts
  obtain ⟨⟨⟨⟨hfiles, hroot⟩, hany⟩, hrefused⟩, htaken⟩ := hfacts
  have hne : b.unsavedFiles ≠ [] := by
    intro hnil
    simp [hnil] at hfiles
  have htidy := (hw ▸ Sound.empty.run _ : w.Sound).tidy
  have hb := (Forest.mem_nodes_of_find? hfind).1
  have hreached := htidy.mem_nodes_of_any hb (htidy.root_mem hb) hany
  refine ⟨document, w, b, eq_ok_of_toOption hread, hw.symm, hfind, hfiles, ?_, ?_⟩
  · generalize hout : Id.run ((w.writeUnsaved (Step.storeWriter (some ⟨"site.conf"⟩)) b).run
      Store.empty) = out at hrefused ⊢
    obtain ⟨⟨result, w'⟩, store⟩ := out
    rcases ((writeUnsaved_of_reached hw.symm hb hroot hreached hout).2 hne).2 with
      ⟨e, rfl, -, hcores, -⟩ | ⟨rfl, -⟩
    · exact ⟨e, w', store, rfl, hcores⟩
    · simp [Except.isOk, Except.toBool] at hrefused
  · generalize hout : Id.run ((w.writeUnsaved (Step.storeWriter none) b).run Store.empty) = out
      at htaken ⊢
    obtain ⟨⟨result, w'⟩, store⟩ := out
    rcases ((writeUnsaved_of_reached hw.symm hb hroot hreached hout).2 hne).2 with
      ⟨e, rfl, -⟩ | ⟨rfl, -, -, ⟨root', hroot', hrest⟩, -⟩
    · simp [Except.isOk, Except.toBool] at htaken
    · exact ⟨w', store, root', rfl, hroot', hrest⟩

end Workspace

end HttpdConf
