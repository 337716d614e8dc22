import HttpdConf.Proofs.Writing

/-!
# What a write reaches

A write finds the files of a node in the tree of the node, but it hands over and settles what it
finds from the root. The two trees are the same place only if the root reaches the node through
children. A node that was taken out of its block, or was made under a block without being one of its
children, has a root that does not reach it.

## Main definitions

* `Workspace.HandsOver`: what is handed over for a file holds the changes of it in a node
* `Workspace.NothingPending`: a node has no change that is not saved

## Main results

* `Workspace.handsOver_iff`: the changes in a node are handed over just if its root reaches it
* `Workspace.nothingPending_iff`: when nothing is pending after a write
-/

namespace HttpdConf

variable {σ : Type} {writer : Writer (StateM σ)} {s s' : σ} {w w' : Workspace} {b t u v r : Tree}
  {f : Forest} {files : List Path} {path : Path}

/-! ## Roots that reach their nodes -/

/-- A node in two trees is where one of them is in the other. -/
theorem Forest.Tidy.mem_nodes_or (hf : f.Tidy) (hb : b ∈ Forest.nodes f) (hr : r ∈ Forest.nodes f)
    (hub : u ∈ b.nodes) (hur : u ∈ r.nodes) : b ∈ r.nodes ∨ r ∈ b.nodes := by
  -- from `b` down: a child that is in `r` is its top, or its block is in `r` as well
  refine Tree.forall_nodes_of_children (P := fun x => x ∈ r.nodes → b ∈ r.nodes ∨ r ∈ b.nodes) b
    (fun x hx hnested y hy hyr => ?_) .inl u hub hur
  have hxf := (Forest.nodes_sublist f hb).subset hx
  rcases Tree.eq_or_mem_children r hyr with rfl | ⟨z, hz, hyz⟩
  · exact .inr (Tree.mem_nodes_of_child hx hy)
  · have hzf := (Forest.nodes_sublist f hr).subset hz
    have hlinks := (hf.linked z hzf y hyz).symm.trans (hf.linked x hxf y hy)
    obtain rfl := hf.eq_of_id_eq hzf hxf (Option.some.inj hlinks)
    exact hnested hz

/-- A trail leads to a live block, and the blocks on it have that block in them. -/
theorem Forest.Tidy.mem_trail {id : NodeId} {block : Tree} {around : List Tree} (hf : f.Tidy)
    (h : f.trail? id = some (block, around)) :
    block ∈ Forest.nodes f ∧ block.id = id ∧
      ∀ v ∈ around, v ∈ Forest.nodes f ∧ block ∈ v.nodes := by
  obtain ⟨hblock, hid, rfl⟩ := hf.trail?_eq_some h
  refine ⟨hblock, hid, fun v hv => ?_⟩
  rw [List.mem_reverse, List.mem_filter] at hv
  obtain ⟨x, hx, hxid⟩ := Tree.encloses_iff.1 hv.2
  have hxv := Tree.mem_nodes_of_mem_children hx
  have hxf := (Forest.nodes_sublist f hv.1).subset hxv
  rw [hf.eq_of_id_eq hblock hxf hxid.symm]
  exact ⟨hv.1, hxv⟩

namespace Workspace.Sound

variable (hw : w.Sound)
include hw

/-- A block is older than what is in it. -/
theorem id_le (ht : t ∈ Forest.nodes w.forest) (hu : u ∈ t.nodes) : t.id ≤ u.id := by
  refine Tree.forall_nodes_of_children (P := fun x => t.id ≤ x.id) t (fun x hx hle y hy => ?_)
    (Nat.le_refl _) u hu
  have hxf := (Forest.nodes_sublist _ ht).subset hx
  have hyf : y ∈ Forest.nodes w.forest := Forest.mem_nodes_of_child hxf hy
  exact Nat.le_of_lt (Nat.lt_of_le_of_lt hle
    (hw.older y hyf x.id (hw.tidy.linked x hxf y hy)))

/-- The outermost block of a trail is no younger than the others. -/
theorem getLast?_trail {id : NodeId} {block : Tree} {around : List Tree}
    (h : w.forest.trail? id = some (block, around)) :
    around.getLast?.getD block ∈ Forest.nodes w.forest ∧
      (around.getLast?.getD block).id ≤ block.id := by
  obtain ⟨hblock, -, haround⟩ := hw.tidy.mem_trail h
  cases hlast : around.getLast? with
  | none => exact ⟨hblock, Nat.le_refl _⟩
  | some top =>
    obtain ⟨htop, hmem⟩ := haround top (List.mem_of_getLast? hlast)
    exact ⟨htop, hw.id_le htop hmem⟩

/-- What a node is made under is older than the node, and so is all around it. -/
theorem lt_of_mem_lineageUpTo {limit : Nat} {link : Option NodeId} {n : Nat}
    (hlink : ∀ id ∈ link, id < n) (hu : u ∈ w.forest.lineageUpTo limit link) : u.id < n := by
  induction limit generalizing link with
  | zero => simp [Forest.lineageUpTo] at hu
  | succ limit ih =>
    obtain ⟨id, hid, block, around, htrail, hu⟩ := Forest.mem_lineageUpTo_succ.1 hu
    obtain ⟨-, rfl, haround⟩ := hw.tidy.mem_trail htrail
    have hlt : block.id < n := hlink block.id hid
    obtain ⟨htop, hle⟩ := hw.getLast?_trail htrail
    rcases hu with rfl | hu | hu
    · exact hlt
    · obtain ⟨huf, hblock⟩ := haround u hu
      exact Nat.lt_of_le_of_lt (hw.id_le huf hblock) hlt
    · -- the outermost block around goes on with what it was made under
      exact ih (fun a ha => Nat.lt_trans (hw.older _ htop a ha) (Nat.lt_of_le_of_lt hle hlt)) hu

/-- A root that shares a node with the tree of its node reaches the node. -/
theorem mem_nodes_root (hb : b ∈ Forest.nodes w.forest) (hub : u ∈ b.nodes)
    (hur : u ∈ (w.forest.root b).nodes) : b ∈ (w.forest.root b).nodes := by
  rcases hw.tidy.mem_nodes_or hb (hw.tidy.root_mem hb) hub hur with h | h
  · exact h
  · -- a root that is not the node itself is older, so it is not inside the node
    have hle := hw.id_le hb h
    rw [Forest.root] at hle ⊢
    cases hlast : (w.forest.lineage b.core).getLast? with
    | none => exact b.self_mem_nodes
    | some top =>
      rw [hlast, Option.getD_some] at hle
      have hlt := hw.lt_of_mem_lineageUpTo (hw.older b hb) (List.mem_of_getLast? hlast)
      exact absurd hle (Nat.not_le_of_lt hlt)

end Workspace.Sound

/-! ## The nodes of a file -/

mutual
theorem Tree.fileRoots_sublist (path : Path) (t : Tree) :
    (t.fileRoots path).Sublist t.nodes := by
  cases htop : t.core.path == path with
  | true =>
    rw [Tree.fileRoots_of_path htop]
    exact List.singleton_sublist.2 t.self_mem_nodes
  | false =>
    rw [Tree.fileRoots_of_not_path htop, t.nodes_eq]
    match t with
    | .comment core text => exact List.nil_sublist _
    | .directive core statement => exact List.nil_sublist _
    | .block core statement children => exact .cons _ (Forest.fileRoots_sublist path children)

theorem Forest.fileRoots_sublist (path : Path) (f : Forest) :
    (Forest.fileRoots path f).Sublist (Forest.nodes f) := by
  match f with
  | [] => exact List.nil_sublist _
  | t :: f =>
    rw [Forest.fileRoots, Forest.nodes_cons]
    exact (Tree.fileRoots_sublist path t).append (Forest.fileRoots_sublist path f)
end

mutual
/-- Every node of a file is in one of the roots of the file. -/
theorem Tree.exists_mem_fileRoots {u : Tree} (t : Tree) (hu : u ∈ t.nodes)
    (hpath : (u.core.path == path) = true) : ∃ v ∈ t.fileRoots path, u ∈ v.nodes := by
  cases htop : t.core.path == path with
  | true =>
    rw [Tree.fileRoots_of_path htop]
    exact ⟨t, List.mem_singleton_self _, hu⟩
  | false =>
    rw [Tree.fileRoots_of_not_path htop]
    rw [t.nodes_eq] at hu
    rcases List.mem_cons.1 hu with rfl | hu
    · exact absurd hpath (by simp [htop])
    · match t with
      | .comment core text => exact absurd hu List.not_mem_nil
      | .directive core statement => exact absurd hu List.not_mem_nil
      | .block core statement children => exact Forest.exists_mem_fileRoots children hu hpath

theorem Forest.exists_mem_fileRoots {u : Tree} (f : Forest) (hu : u ∈ Forest.nodes f)
    (hpath : (u.core.path == path) = true) : ∃ v ∈ Forest.fileRoots path f, u ∈ v.nodes := by
  match f with
  | [] => simp at hu
  | t :: f =>
    rw [Forest.nodes_cons, List.mem_append] at hu
    rw [Forest.fileRoots]
    rcases hu with hu | hu
    · obtain ⟨v, hv, huv⟩ := Tree.exists_mem_fileRoots t hu hpath
      exact ⟨v, List.mem_append_left _ hv, huv⟩
    · obtain ⟨v, hv, huv⟩ := Forest.exists_mem_fileRoots f hu hpath
      exact ⟨v, List.mem_append_right _ hv, huv⟩
end

/-- An unsaved file is that of a modified node. -/
theorem Tree.exists_of_mem_unsavedFiles (hmarked : ∀ u ∈ b.nodes, u.IsMarked)
    (hpath : path ∈ b.unsavedFiles) :
    ∃ u ∈ b.nodes, u.core.modified = true ∧ (u.core.path == path) = true := by
  have hany : b.unsavedFiles.any (· == path) = true :=
    List.any_eq_true.2 ⟨path, hpath, Path.beq_refl path⟩
  rw [Tree.any_unsavedFiles hmarked] at hany
  obtain ⟨u, hu, hboth⟩ := List.any_eq_true.1 hany
  exact ⟨u, hu, Bool.and_eq_true_iff.1 hboth⟩

/-! ## The text of a change -/

/-- The text of a node, at its place, is in some text. -/
def Tree.ShowsIn (t : Tree) (text : String) : Prop :=
  ∃ depth before, (t.renderAfter depth before).toList <:+: text.toList

theorem Tree.ShowsIn.append {x y z : String} (h : t.ShowsIn y) : t.ShowsIn (x ++ y ++ z) := by
  obtain ⟨depth, before, hinfix⟩ := h
  refine ⟨depth, before, hinfix.trans ⟨x.toList, z.toList, ?_⟩⟩
  simp

theorem Tree.ShowsIn.append_left {x y : String} (h : t.ShowsIn y) : t.ShowsIn (x ++ y) := by
  obtain ⟨depth, before, hinfix⟩ := h
  exact ⟨depth, before, hinfix.trans ⟨x.toList, [], by simp⟩⟩

theorem Tree.showsIn_self (t : Tree) (depth : Nat) (before : Ending) :
    t.ShowsIn (t.renderAfter depth before) := ⟨depth, before, List.infix_rfl⟩

mutual
/-- The text of a tree has the texts of the nodes that are reached through dirty ones, because dirty
blocks are not copied. -/
theorem Tree.showsIn_of_reached {u : Tree} (t : Tree) (hu : u ∈ t.reached Core.dirty) (depth : Nat)
    (before : Ending) : u.ShowsIn (t.renderAfter depth before) := by
  match t with
  | .comment core text =>
    rw [Tree.reached] at hu
    split at hu
    · rw [List.mem_singleton.1 hu]
      exact Tree.showsIn_self _ depth before
    · simp at hu
  | .directive core statement =>
    rw [Tree.reached] at hu
    split at hu
    · rw [List.mem_singleton.1 hu]
      exact Tree.showsIn_self _ depth before
    · simp at hu
  | .block core statement children =>
    rw [Tree.reached] at hu
    split at hu
    · rename_i hdirty
      rcases List.mem_cons.1 hu with rfl | hu
      · exact Tree.showsIn_self _ depth before
      · have hrebuilt : core.isRebuilt = true := by simp [Core.isRebuilt, hdirty]
        rw [Tree.renderAfter_of_rebuilt hrebuilt]
        exact (Forest.showsIn_of_reached children hu _ _).append
    · simp at hu

theorem Forest.showsIn_of_reached {u : Tree} (f : Forest) (hu : u ∈ Forest.reached Core.dirty f)
    (depth : Nat) (before : Ending) : u.ShowsIn (Forest.renderAfter depth before f) := by
  match f with
  | [] => simp [Forest.reached] at hu
  | t :: f =>
    rw [Forest.reached, List.mem_append] at hu
    rw [Forest.renderAfter]
    rcases hu with hu | hu
    · exact (Tree.showsIn_of_reached t hu _ _).append
    · exact (Forest.showsIn_of_reached f hu _ _).append_left
end

/-- The text of some nodes has the text of each of them and of what is in it. -/
theorem Forest.showsIn_renderAll {ts : List Tree} (hv : v ∈ ts) (hu : u ∈ v.dirtyNodes)
    (before : Ending) : u.ShowsIn (f.renderAll before ts) := by
  induction ts generalizing before with
  | nil => simp at hv
  | cons t ts ih =>
    rw [Forest.renderAll]
    rcases List.mem_cons.1 hv with rfl | hv
    · exact (Tree.showsIn_of_reached v hu _ _).append
    · exact (ih hv _).append_left

/-! ## Every state -/

namespace Workspace

/-- What is handed over for a file holds the changes of it in a node: there are nodes of the file,
each modified node of it is in one of them, and its text is in the text of the file. -/
structure HandsOver (w : Workspace) (b : Tree) (path : Path) : Prop where
  nodes : w.fileNodes b path ≠ []
  modified : ∀ u ∈ b.nodes, u.core.modified = true → (u.core.path == path) = true →
    (∃ v ∈ w.fileNodes b path, u ∈ v.nodes) ∧ u.ShowsIn (w.fileText b path)

/-- A root that reaches a node hands over all changes in it. -/
theorem Sound.handsOver (hw : w.Sound) (hmarked : ∀ t ∈ Forest.nodes w.forest, t.IsMarked)
    (hb : b ∈ Forest.nodes w.forest) (hreached : b ∈ (w.forest.root b).nodes)
    (hpath : path ∈ b.unsavedFiles) : w.HandsOver b path := by
  have hr := hw.tidy.root_mem hb
  have hroot : ∀ u ∈ b.nodes, u ∈ (w.forest.root b).nodes :=
    (Tree.nodes_sublist _ hreached).subset
  have hbmarked : ∀ u ∈ b.nodes, u.IsMarked := fun u hu =>
    hmarked u ((Forest.nodes_sublist _ hb).subset hu)
  constructor
  · obtain ⟨u, hu, -, hupath⟩ := Tree.exists_of_mem_unsavedFiles hbmarked hpath
    obtain ⟨v, hv, -⟩ := Tree.exists_mem_fileRoots _ (hroot u hu) hupath
    exact List.ne_nil_of_mem hv
  · intro u hu hmodified hupath
    obtain ⟨v, hv, huv⟩ := Tree.exists_mem_fileRoots _ (hroot u hu) hupath
    refine ⟨⟨v, hv, huv⟩, ?_⟩
    -- a modified node is reached through dirty ones, so it is rendered and not copied
    have hvr := (Tree.fileRoots_sublist path _).subset hv
    have hvmarked : ∀ x ∈ v.nodes, x.IsMarked := fun x hx =>
      hmarked x ((Forest.nodes_sublist _ hr).subset ((Tree.nodes_sublist _ hvr).subset hx))
    have hfilter : u ∈ v.nodes.filter fun x => x.core.modified := List.mem_filter.2 ⟨huv, hmodified⟩
    rw [← v.filter_modified_dirtyNodes hvmarked] at hfilter
    exact Forest.showsIn_renderAll hv (List.mem_of_mem_filter hfilter) _

/-- In any workspace that operations lead to, a write that succeeds hands over the changes of every
file it reports just if there are none or the root reaches the node. -/
theorem handsOver_iff {operations : List Operation} (hw : w = empty.run operations)
    (hb : b ∈ Forest.nodes w.forest)
    (hwrite : Id.run ((w.writeUnsaved writer b).run s) = ((.ok files, w'), s')) :
    files = b.unsavedFiles ∧ writer.Takes w.forest (w.fileNodes b) files s s' ∧
      ((∀ path ∈ files, w.HandsOver b path) ↔ files = [] ∨ b ∈ (w.forest.root b).nodes) := by
  have hsound : w.Sound := hw ▸ Sound.empty.run operations
  have hmarked : ∀ t ∈ Forest.nodes w.forest, t.IsMarked :=
    hw ▸ isMarked_run Sound.empty (by simp [empty]) operations
  cases writes_writeUnsaved hwrite with
  | idle blocks hfiles => exact ⟨hfiles.symm, .nil _, by simp⟩
  | written blocks hfiles _ htakes =>
    refine ⟨rfl, htakes, fun hall => .inr ?_, fun hreached path hpath => ?_⟩
    · -- a change that is handed over is in the tree of the node and in that of the root
      obtain ⟨path, hpath⟩ := List.exists_mem_of_ne_nil _ hfiles
      obtain ⟨u, hu, hmodified, hupath⟩ := Tree.exists_of_mem_unsavedFiles
        (fun u hu => hmarked u ((Forest.nodes_sublist _ hb).subset hu)) hpath
      obtain ⟨⟨v, hv, huv⟩, -⟩ := (hall path hpath).modified u hu hmodified hupath
      have hvr := (Tree.fileRoots_sublist path _).subset hv
      exact hsound.mem_nodes_root hb hu ((Tree.nodes_sublist _ hvr).subset huv)
    · exact hsound.handsOver hmarked hb (hreached.resolve_left hfiles) hpath

/-- A block is changed and so is a file that is included in it. -/
theorem handsOver_iff_included :
    ∃ document w b files w' store,
      DocumentSpec.assemble (.file ⟨⟨"site.conf"⟩, "<A>\nB 1\n</A>\n"⟩
        [(⟨[0], 1, false⟩, .file ⟨⟨"a.conf"⟩, "D 1\n"⟩ [])]) = .ok document ∧
      w = empty.run [
        .construct ⟨none, none, false, some (.parsed document), none⟩ (.block "" []) true,
        .edit 0 (.setParameters 2 ["2"]), .edit 1 (.setParameters 3 ["2"])] ∧
      w.forest.find? 1 = some b ∧
      Id.run ((w.writeUnsaved (Step.storeWriter none) b).run Store.empty) =
        ((.ok files, w'), store) ∧
      files.map Path.text = ["a.conf", "site.conf"] ∧ ∀ path ∈ files, w.HandsOver b path := by
  have hfacts : ((DocumentSpec.assemble (.file ⟨⟨"site.conf"⟩, "<A>\nB 1\n</A>\n"⟩
        [(⟨[0], 1, false⟩, .file ⟨⟨"a.conf"⟩, "D 1\n"⟩ [])])).toOption.any fun document =>
      let w := empty.run [
        .construct ⟨none, none, false, some (.parsed document), none⟩ (.block "" []) true,
        .edit 0 (.setParameters 2 ["2"]), .edit 1 (.setParameters 3 ["2"])]
      (w.forest.find? 1).any fun b => (w.forest.root b).nodes.any (·.id == b.id) &&
        (Id.run ((w.writeUnsaved (Step.storeWriter none) b).run Store.empty)).1.1.toOption.any
          fun files => files.map Path.text == ["a.conf", "site.conf"]) = true := by
    decide +kernel
  obtain ⟨document, hread, hfacts⟩ := (Option.any_eq_true ..).1 hfacts
  obtain ⟨b, hfind, hfacts⟩ := (Option.any_eq_true ..).1 hfacts
  generalize hw : empty.run _ = w at hfind hfacts
  obtain ⟨hany, hfacts⟩ := Bool.and_eq_true_iff.1 hfacts
  generalize hout : Id.run ((w.writeUnsaved (Step.storeWriter none) b).run Store.empty) = out
    at hfacts
  obtain ⟨⟨result, w'⟩, store⟩ := out
  obtain ⟨files, hresult, hfiles⟩ := (Option.any_eq_true ..).1 hfacts
  obtain rfl := eq_ok_of_toOption hresult
  have htidy := (hw ▸ Sound.empty.run _ : w.Sound).tidy
  have hb := (Forest.mem_nodes_of_find? hfind).1
  have hreached := htidy.mem_nodes_of_any hb (htidy.root_mem hb) hany
  exact ⟨document, w, b, files, w', store, eq_ok_of_toOption hread, hw.symm, hfind, hout,
    beq_iff_eq.1 hfiles, (handsOver_iff hw.symm hb hout).2.2.2 (.inr hreached)⟩

/-- A block that is made under a block of a document, with a file of its own, is changed and
written. The root does not reach it, so its file is reported as written, but is empty. -/
theorem exists_not_handsOver :
    ∃ document w b w' store, Fragment.read ⟨⟨"site.conf"⟩, "<A>\n</A>\n"⟩ = .ok document ∧
      w = empty.run [
        .construct ⟨none, none, false, some (.parsed document), none⟩ (.block "" []) true,
        .construct ⟨some 1, some ⟨"view.conf"⟩, false, document.children.head?.map .parsed, none⟩
          (.block "A" []) true,
        .edit 2 (.setParameters 2 ["x"])] ∧
      w.forest.find? 2 = some b ∧
      Id.run ((w.writeUnsaved (Step.storeWriter none) b).run Store.empty) =
        ((.ok b.unsavedFiles, w'), store) ∧
      b.unsavedFiles.map Path.text = ["view.conf"] ∧ store.get? ⟨"view.conf"⟩ = some "" ∧
      ¬ ∀ path ∈ b.unsavedFiles, w.HandsOver b path := by
  have hfacts : ((Fragment.read ⟨⟨"site.conf"⟩, "<A>\n</A>\n"⟩).toOption.any fun document =>
      let w := empty.run [
        .construct ⟨none, none, false, some (.parsed document), none⟩ (.block "" []) true,
        .construct ⟨some 1, some ⟨"view.conf"⟩, false, document.children.head?.map .parsed, none⟩
          (.block "A" []) true,
        .edit 2 (.setParameters 2 ["x"])]
      (w.forest.find? 2).any fun b =>
        b.unsavedFiles.map Path.text == ["view.conf"] &&
        b.unsavedFiles.all (fun path => ((w.forest.root b).fileRoots path).isEmpty) &&
        (Id.run ((w.writeUnsaved (Step.storeWriter none) b).run Store.empty)).1.1.isOk &&
        (Id.run ((w.writeUnsaved (Step.storeWriter none) b).run Store.empty)).2.get?
          ⟨"view.conf"⟩ == some "") = true := by
    decide +kernel
  obtain ⟨document, hread, hfacts⟩ := (Option.any_eq_true ..).1 hfacts
  obtain ⟨b, hfind, hfacts⟩ := (Option.any_eq_true ..).1 hfacts
  generalize hw : empty.run _ = w at hfind hfacts
  generalize hout : Id.run ((w.writeUnsaved (Step.storeWriter none) b).run Store.empty) = out
    at hfacts
  obtain ⟨⟨result, w'⟩, store⟩ := out
  simp only [Bool.and_eq_true, beq_iff_eq] at hfacts
  obtain ⟨⟨⟨hfiles, hroots⟩, hok⟩, hstored⟩ := hfacts
  have hresult : result = .ok b.unsavedFiles := by
    cases writes_writeUnsaved hout with
    | idle blocks hnone => rw [hnone]
    | written => rfl
    | _ => simp [Except.isOk, Except.toBool] at hok
  refine ⟨document, w, b, w', store, eq_ok_of_toOption hread, hw.symm, hfind, hresult ▸ hout,
    hfiles, hstored, fun hall => ?_⟩
  obtain ⟨path, hpath⟩ := List.exists_mem_of_ne_nil b.unsavedFiles fun hnil => by
    simp [hnil] at hfiles
  exact (hall path hpath).nodes (List.isEmpty_iff.1 (List.all_eq_true.1 hroots path hpath))

/-- A node has no change that is not saved. -/
structure NothingPending (w : Workspace) (t : Tree) : Prop where
  dirty : t.core.dirty = false
  unsavedFiles : t.unsavedFiles = []
  save : ∀ message, w.save t message = (none, w)

/-- A node that is not dirty has nothing pending. -/
theorem nothingPending_iff_dirty (h : t.unsavedFiles = []) :
    w.NothingPending t ↔ t.core.dirty = false := by
  constructor
  · exact fun h => h.dirty
  · exact fun hclean => ⟨hclean, h, fun message => by simp [Workspace.save, hclean]⟩

/-- In any workspace that operations lead to, nothing of a node is pending after a write of it that
succeeds just if the node was not dirty, or had unsaved files and its root reaches it. -/
theorem nothingPending_iff {operations : List Operation} (hw : w = empty.run operations)
    (hb : b ∈ Forest.nodes w.forest)
    (hwrite : Id.run ((w.writeUnsaved writer b).run s) = ((.ok files, w'), s')) :
    ∃ b', w'.forest.find? b.id = some b' ∧ (w'.NothingPending b' ↔
      b.core.dirty = false ∨ b.unsavedFiles ≠ [] ∧ b ∈ (w.forest.root b).nodes) := by
  have hsound : w.Sound := hw ▸ Sound.empty.run operations
  have hmarked : ∀ t ∈ Forest.nodes w.forest, t.IsMarked :=
    hw ▸ isMarked_run Sound.empty (by simp [empty]) operations
  have hr := hsound.tidy.root_mem hb
  cases writes_writeUnsaved hwrite with
  | idle blocks hfiles =>
    -- nothing is settled, so a stale flag stays
    obtain ⟨b', hfind, hcore, hfiles'⟩ := hsound.unsavedFiles_list hmarked blocks hb
    refine ⟨b', hfind, ?_⟩
    rw [nothingPending_iff_dirty (hfiles'.trans hfiles), hcore]
    simp [hfiles]
  | written blocks hfiles _ htakes =>
    have hdirty : b.core.dirty = true := by
      by_contra hclean
      refine hfiles (Tree.unsavedFiles_of_unmodified (b.modified_of_clean (fun u hu => ?_)
        (Bool.eq_false_iff.2 hclean)))
      exact hmarked u ((Forest.nodes_sublist _ hb).subset hu)
    by_cases hreached : b ∈ (w.forest.root b).nodes
    · obtain ⟨b', hfind, hsettles, hnone⟩ :=
        hsound.exists_unmodified_settled hmarked blocks hr hreached
      have hclean : b'.core.dirty = false := by
        rw [hsettles.dirty hreached, List.any_eq_false]
        intro x hx
        simp [hnone x hx]
      refine ⟨b', hfind, ?_⟩
      rw [nothingPending_iff_dirty (Tree.unsavedFiles_of_unmodified hnone)]
      exact ⟨fun _ => .inr ⟨hfiles, hreached⟩, fun _ => hclean⟩
    · -- the node is in another tree, where nothing is settled
      obtain ⟨b', hfind, hsettles⟩ := hsound.exists_settlesTo hmarked blocks b.unsavedFiles hr hb
      have hdirty' : b'.core.dirty = true := by rw [hsettles.outside hreached, hdirty]
      refine ⟨b', hfind, fun h => ?_, fun h => ?_⟩
      · simp [h.dirty] at hdirty'
      · simp [hdirty, hreached] at h

/-- A statement in a block is changed, and the block is written. -/
theorem nothingPending_iff_nested :
    ∃ document w b files w' store b',
      Fragment.read ⟨⟨"site.conf"⟩, "<A>\nB 1\n</A>\n"⟩ = .ok document ∧
      w = empty.run [
        .construct ⟨none, none, false, some (.parsed document), none⟩ (.block "" []) true,
        .edit 0 (.setParameters 2 ["2"])] ∧
      w.forest.find? 1 = some b ∧ b.core.dirty = true ∧
      Id.run ((w.writeUnsaved (Step.storeWriter none) b).run Store.empty) =
        ((.ok files, w'), store) ∧
      w'.forest.find? b.id = some b' ∧ w'.NothingPending b' := by
  have hfacts : ((Fragment.read ⟨⟨"site.conf"⟩, "<A>\nB 1\n</A>\n"⟩).toOption.any fun document =>
      let w := empty.run [
        .construct ⟨none, none, false, some (.parsed document), none⟩ (.block "" []) true,
        .edit 0 (.setParameters 2 ["2"])]
      (w.forest.find? 1).any fun b => (w.forest.root b).nodes.any (·.id == b.id) &&
        b.core.dirty && !b.unsavedFiles.isEmpty &&
        (Id.run ((w.writeUnsaved (Step.storeWriter none) b).run
          Store.empty)).1.1.toOption.isSome) = true := by
    decide +kernel
  obtain ⟨document, hread, hfacts⟩ := (Option.any_eq_true ..).1 hfacts
  obtain ⟨b, hfind, hfacts⟩ := (Option.any_eq_true ..).1 hfacts
  generalize hw : empty.run _ = w at hfind hfacts
  generalize hout : Id.run ((w.writeUnsaved (Step.storeWriter none) b).run Store.empty) = out
    at hfacts
  obtain ⟨⟨result, w'⟩, store⟩ := out
  simp only [Bool.and_eq_true, Bool.not_eq_true', List.isEmpty_eq_false_iff] at hfacts
  obtain ⟨⟨⟨hany, hdirty⟩, hfiles⟩, hok⟩ := hfacts
  obtain ⟨files, hresult⟩ := Option.isSome_iff_exists.1 hok
  obtain rfl := eq_ok_of_toOption hresult
  have htidy := (hw ▸ Sound.empty.run _ : w.Sound).tidy
  have hb := (Forest.mem_nodes_of_find? hfind).1
  have hreached := htidy.mem_nodes_of_any hb (htidy.root_mem hb) hany
  obtain ⟨b', hfind', hiff⟩ := nothingPending_iff hw.symm hb hout
  exact ⟨document, w, b, files, w', store, b', eq_ok_of_toOption hread, hw.symm, hfind, hdirty,
    hout, hfind', hiff.2 (.inr ⟨hfiles, hreached⟩)⟩

/-- A statement in a block is changed, the changes of the block are forgotten, and the document is
written. The write succeeds, but the document stays dirty, and a checkpoint of no files is recorded
for it. -/
theorem exists_not_nothingPending :
    ∃ document w b w' store b',
      Fragment.read ⟨⟨"site.conf"⟩, "<A>\nB 1\n</A>\n"⟩ = .ok document ∧
      w = empty.run [
        .construct ⟨none, none, false, some (.parsed document), none⟩ (.block "" []) true,
        .edit 0 (.setParameters 2 ["2"]), .markClean 1] ∧
      w.forest.find? 0 = some b ∧ (w.forest.root b).core.origin.isDocument = true ∧
      b ∈ (w.forest.root b).nodes ∧
      Id.run ((w.writeUnsaved (Step.storeWriter none) b).run Store.empty) = ((.ok [], w'), store) ∧
      w'.forest.find? b.id = some b' ∧ ¬ w'.NothingPending b' ∧
      (w'.save b' "").1.map Checkpoint.files = some [] := by
  have hfacts : ((Fragment.read ⟨⟨"site.conf"⟩, "<A>\nB 1\n</A>\n"⟩).toOption.any fun document =>
      let w := empty.run [
        .construct ⟨none, none, false, some (.parsed document), none⟩ (.block "" []) true,
        .edit 0 (.setParameters 2 ["2"]), .markClean 1]
      (w.forest.find? 0).any fun b => (w.forest.root b).nodes.any (·.id == b.id) &&
        (w.forest.root b).core.origin.isDocument && b.core.dirty && b.unsavedFiles.isEmpty) =
      true := by
    decide +kernel
  obtain ⟨document, hread, hfacts⟩ := (Option.any_eq_true ..).1 hfacts
  obtain ⟨b, hfind, hfacts⟩ := (Option.any_eq_true ..).1 hfacts
  generalize hw : empty.run _ = w at hfind hfacts
  simp only [Bool.and_eq_true, List.isEmpty_iff] at hfacts
  obtain ⟨⟨⟨hany, hroot⟩, hdirty⟩, hfiles⟩ := hfacts
  have hsound : w.Sound := hw ▸ Sound.empty.run _
  have hb := (Forest.mem_nodes_of_find? hfind).1
  have hreached := hsound.tidy.mem_nodes_of_any hb (hsound.tidy.root_mem hb) hany
  have hmarked : ∀ t ∈ Forest.nodes w.forest, t.IsMarked :=
    hw ▸ isMarked_run Sound.empty (by simp [empty]) _
  obtain ⟨b', hfind', hcore, hfiles'⟩ :=
    hsound.unsavedFiles_list hmarked (blockIds b.dirtyNodes) hb
  refine ⟨document, w, b, w.list (blockIds b.dirtyNodes), Store.empty, b', eq_ok_of_toOption hread,
    hw.symm, hfind, hroot, hreached, ?_, hfind', fun h => ?_, ?_⟩
  · rw [Workspace.writeUnsaved]
    simp only [hfiles]
    rfl
  · have hclean := h.dirty
    simp [hcore, hdirty] at hclean
  · simp [Workspace.save, hcore, hdirty, hfiles', hfiles]

end Workspace

end HttpdConf
