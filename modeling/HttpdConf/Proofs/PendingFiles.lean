import HttpdConf.Proofs.Flags

/-!
# Files with pending changes

The search for files with pending changes goes down through dirty nodes only. It misses nothing,
because flags agree in every workspace that operations lead to, and it finds nothing in a tree that
no operation was aimed at.

## Main definitions

* `Tree.ComesFrom`: a node is left alone

## Main results

* `Tree.any_unsavedFiles`: the unsaved files of a node are those of the modified nodes in it
* `Workspace.Effect.exists_comesFrom`, `Workspace.exists_comesFrom_run`: operations leave nodes
  alone that they are not aimed at
* `Workspace.unsavedFiles_run`: which files are unsaved after any operations
-/

namespace HttpdConf

variable {w w' : Workspace} {t u v : Tree} {f : Forest} {id : NodeId} {target : Option NodeId}

/-! ## Unsaved files -/

mutual
/-- Below a node that is not dirty, nothing is modified. -/
theorem Tree.modified_of_clean (t : Tree) (h : ∀ u ∈ t.nodes, u.IsMarked)
    (hclean : t.core.dirty = false) : ∀ u ∈ t.nodes, u.core.modified = false := by
  have hself := h t t.self_mem_nodes
  have htop : t.core.modified = false := by
    by_contra hmodified
    simp [hself.modified (eq_true_of_ne_false hmodified)] at hclean
  match t with
  | .comment core text => exact fun u hu => by rwa [List.mem_singleton.1 hu]
  | .directive core statement => exact fun u hu => by rwa [List.mem_singleton.1 hu]
  | .block core statement children =>
    intro u hu
    rw [Tree.nodes] at hu
    rcases List.mem_cons.1 hu with rfl | hu
    · exact htop
    · refine Forest.modified_of_clean children
        (fun v hv => h v (Tree.mem_nodes_of_mem_children hv)) (fun v hv => ?_) u hu
      by_contra hdirty
      simp [hself.children v hv (eq_true_of_ne_false hdirty)] at hclean

theorem Forest.modified_of_clean (f : Forest) (h : ∀ u ∈ Forest.nodes f, u.IsMarked)
    (hclean : ∀ u ∈ f, u.core.dirty = false) :
    ∀ u ∈ Forest.nodes f, u.core.modified = false := by
  match f with
  | [] => simp
  | t :: f =>
    intro u hu
    rw [Forest.nodes_cons, List.mem_append] at hu
    rcases hu with hu | hu
    · exact Tree.modified_of_clean t (fun v hv => h v (by simp [hv])) (hclean t (by simp)) u hu
    · exact Forest.modified_of_clean f (fun v hv => h v (by simp [hv]))
        (fun v hv => hclean v (by simp [hv])) u hu
end

mutual
/-- The search through dirty nodes finds all modified ones. -/
theorem Tree.filter_modified_dirtyNodes (t : Tree) (h : ∀ u ∈ t.nodes, u.IsMarked) :
    t.dirtyNodes.filter (fun u => u.core.modified) = t.nodes.filter fun u => u.core.modified := by
  rw [Tree.dirtyNodes]
  by_cases hdirty : t.core.dirty = true
  · match t with
    | .comment core text =>
      rw [Tree.reached, if_pos (show core.dirty = true from hdirty), Tree.nodes]
    | .directive core statement =>
      rw [Tree.reached, if_pos (show core.dirty = true from hdirty), Tree.nodes]
    | .block core statement children =>
      rw [Tree.reached, if_pos (show core.dirty = true from hdirty), Tree.nodes,
        List.filter_cons, List.filter_cons, Forest.filter_modified_reached children
          fun v hv => h v (Tree.mem_nodes_of_mem_children hv)]
  · have hclean : t.core.dirty = false := Bool.eq_false_iff.2 hdirty
    have hnone : t.nodes.filter (fun u => u.core.modified) = [] := by
      rw [List.filter_eq_nil_iff]
      intro u hu
      simp [t.modified_of_clean h hclean u hu]
    rw [hnone]
    cases t <;> simp only [Tree.core] at hclean <;> simp [Tree.reached, hclean]

theorem Forest.filter_modified_reached (f : Forest) (h : ∀ u ∈ Forest.nodes f, u.IsMarked) :
    (Forest.reached Core.dirty f).filter (fun u => u.core.modified) =
      (Forest.nodes f).filter fun u => u.core.modified := by
  match f with
  | [] => simp [Forest.reached]
  | t :: f =>
    have htree := Tree.filter_modified_dirtyNodes t fun v hv => h v (by simp [hv])
    rw [Tree.dirtyNodes] at htree
    rw [Forest.reached, Forest.nodes_cons, List.filter_append, List.filter_append, htree,
      Forest.filter_modified_reached f fun v hv => h v (by simp [hv])]
end

/-- Components that are ordered as equals are equal. -/
theorem Component.eq_of_compare {a b : Component} (h : a.compare b = .eq) : a = b := by
  cases a <;> cases b <;> simp_all [Component.compare, Component.rank]

theorem Path.beq_of_compare {p q : Path} (h : p.compare q = .eq) : (p == q) = true := by
  have hlists : ∀ as bs, Path.compareComponents as bs = .eq → as = bs := by
    intro as
    induction as with
    | nil => intro bs h; cases bs <;> simp_all [Path.compareComponents]
    | cons a as ih =>
      intro bs h
      cases bs with
      | nil => simp [Path.compareComponents] at h
      | cons b bs =>
        rw [Path.compareComponents, Ordering.then_eq_eq] at h
        rw [Component.eq_of_compare h.1, ih bs h.2]
  change (p.components == q.components) = true
  rw [hlists _ _ h]
  exact beq_self_eq_true _

/-- An inserted path is there, and the others stay. -/
theorem Path.any_insert (p : Path) (qs : List Path) (x : Path) :
    (p.insert qs).any (· == x) = (p == x || qs.any (· == x)) := by
  induction qs with
  | nil => simp [Path.insert]
  | cons q qs ih =>
    rw [Path.insert]
    split
    · simp
    · rename_i heq
      -- an equal path is there already
      have hsame : p.components = q.components := by
        simpa using (show (p.components == q.components) = true from Path.beq_of_compare heq)
      have hx : (p == x) = (q == x) := by
        change (p.components == x.components) = (q.components == x.components)
        rw [hsame]
      simp [hx]
    · simp [ih, Bool.or_left_comm]

theorem Path.any_foldl_insert (ts : List Tree) (files : List Path) (x : Path) :
    (ts.foldl (fun files u => u.core.path.insert files) files).any (· == x) =
      (files.any (· == x) || ts.any fun u => u.core.path == x) := by
  induction ts generalizing files with
  | nil => simp
  | cons t ts ih =>
    rw [List.foldl_cons, ih, Path.any_insert, List.any_cons]
    simp [Bool.or_left_comm, Bool.or_assoc]

/-- The unsaved files of a node are those of the modified nodes in it. -/
theorem Tree.any_unsavedFiles (h : ∀ u ∈ t.nodes, u.IsMarked) (path : Path) :
    t.unsavedFiles.any (· == path) =
      t.nodes.any fun u => u.core.modified && u.core.path == path := by
  rw [Tree.unsavedFiles, Tree.filter_modified_dirtyNodes t h, Path.any_foldl_insert, List.any_nil,
    Bool.false_or, List.any_filter]

/-! ## What an operation leaves alone -/

/-- A node comes from another one with its number: it was not modified since, and it has got no
further children. -/
structure Tree.ComesFrom (u v : Tree) : Prop where
  id : u.id = v.id
  modified : u.core.modified = true → v.core.modified = true
  children : ∀ x ∈ u.children, ∃ y ∈ v.children, x.id = y.id

theorem Tree.ComesFrom.refl (t : Tree) : t.ComesFrom t :=
  ⟨rfl, fun h => h, fun x hx => ⟨x, hx, rfl⟩⟩

theorem Tree.ComesFrom.trans (huv : u.ComesFrom v) (hvt : v.ComesFrom t) : u.ComesFrom t := by
  refine ⟨huv.id.trans hvt.id, fun h => hvt.modified (huv.modified h), fun x hx => ?_⟩
  obtain ⟨y, hy, hxy⟩ := huv.children x hx
  obtain ⟨z, hz, hyz⟩ := hvt.children y hy
  exact ⟨z, hz, hxy.trans hyz⟩

theorem Tree.ComesFrom.of_cores (hcore : u.core = v.core)
    (hchildren : ∀ x ∈ u.children, ∃ y ∈ v.children, x.core = y.core) : u.ComesFrom v := by
  refine ⟨congrArg Core.id hcore, fun h => hcore ▸ h, fun x hx => ?_⟩
  obtain ⟨y, hy, hxy⟩ := hchildren x hx
  exact ⟨y, hy, congrArg Core.id hxy⟩

/-- Marks that leave a node unmodified do not change it. -/
theorem Tree.comesFrom_mapCores {k : Core → Core} (hid : ∀ core, (k core).id = core.id)
    (h : (k u.core).modified = true → u.core.modified = true) : (u.mapCores k).ComesFrom u := by
  refine ⟨by rw [Tree.id, Tree.mapCores_core, hid, Tree.id], ?_, fun x hx => ?_⟩
  · rw [Tree.mapCores_core]
    exact h
  · rw [Tree.mapCores_children] at hx
    obtain ⟨y, hy, rfl⟩ := List.mem_map.1 hx
    exact ⟨y, hy, by rw [Tree.id, Tree.mapCores_core, hid, Tree.id]⟩

/-- Clearing flags changes no node, and none of those inside. -/
theorem Tree.comesFrom_of_bare_eq {f : Forest} (hid : u.core.id = v.core.id)
    (hmodified : u.core.modified = true → v.core.modified = true) (hchildren : u.children = f)
    (hbare : f.map Tree.bare = v.children.map Tree.bare) : u.ComesFrom v := by
  refine ⟨hid, hmodified, fun x hx => ?_⟩
  have hx' : x.bare ∈ f.map Tree.bare := List.mem_map_of_mem (hchildren ▸ hx)
  rw [hbare] at hx'
  obtain ⟨y, hy, hyx⟩ := List.mem_map.1 hx'
  exact ⟨y, hy, (Tree.id_eq_of_bare_eq hyx).symm⟩

theorem Tree.exists_comesFrom_markClean {u : Tree} (t : Tree) (hu : u ∈ t.markClean.nodes) :
    ∃ v ∈ t.nodes, u.ComesFrom v := by
  rcases Tree.mem_nodes_markClean t hu with hu | ⟨v, hv, hchildren, hcore⟩
  · exact ⟨u, hu, .refl u⟩
  · refine ⟨v, hv, Tree.comesFrom_of_bare_eq (by rw [hcore]; rfl) (fun h => ?_) hchildren
      (Forest.bare_markClean v.children)⟩
    simp [hcore, Core.clean] at h

theorem Core.modified_of_settle {files : List Path} {below : Bool} {core : Core}
    (h : (core.settle files below).modified = true) : core.modified = true :=
  (Bool.and_eq_true_iff.1 h).1

theorem Tree.exists_comesFrom_settle {u : Tree} (files : List Path) (t : Tree)
    (hu : u ∈ (t.settle files).nodes) : ∃ v ∈ t.nodes, u.ComesFrom v := by
  rcases Tree.mem_nodes_settle t hu with ⟨v, hv, -, hu⟩ | ⟨v, hv, hchildren, hcore⟩
  · exact ⟨u, (Tree.nodes_sublist t hv).subset hu, .refl u⟩
  · refine ⟨v, hv, Tree.comesFrom_of_bare_eq (by rw [hcore]; rfl) (fun h => ?_) hchildren
      (Forest.bare_settle files v.children)⟩
    rw [hcore] at h
    exact Core.modified_of_settle h

/-- Clearing flags from some node down changes no node. -/
theorem Forest.exists_comesFrom_update {g : Tree → Tree} (hid : ∀ v, (g v).bare = v.bare)
    (hg : ∀ v, ∀ u ∈ (g v).nodes, ∃ x ∈ v.nodes, u.ComesFrom x)
    (hu : u ∈ Forest.nodes (f.update id g)) : ∃ v ∈ Forest.nodes f, u.ComesFrom v := by
  rcases Forest.exists_of_mem_nodes_update (R := fun a b => a.id = b.id) (fun _ => rfl)
    (fun v => Tree.id_eq_of_bare_eq (hid v)) f hu with ⟨v, hv, hcore, hchildren⟩ | ⟨v, hv, -, hu⟩
  · exact ⟨v, hv, by rw [Tree.id, hcore, Tree.id], by rw [hcore]; exact fun h => h, hchildren⟩
  · obtain ⟨x, hx, h⟩ := hg v u hu
    exact ⟨x, (Forest.nodes_sublist f hv).subset hx, h⟩

theorem Forest.exists_comesFrom_list {blocks : List NodeId}
    (hu : u ∈ Forest.nodes (f.list blocks)) : ∃ v ∈ Forest.nodes f, u.ComesFrom v := by
  obtain ⟨v, hv, hcore, hchildren⟩ := Forest.exists_of_mem_nodes_list hu
  exact ⟨v, hv, .of_cores hcore hchildren⟩

namespace Workspace

/-- Numbers are never given back. -/
theorem Effect.next_le (h : w.Effect target w') : w.next ≤ w'.next := by
  cases h with
  | construct kin fragments hid hancestor hflags hchildren =>
    obtain ⟨n, hnext, -⟩ := Forest.ids_ofFragments kin w.next (w.next + 1) fragments
    rw [hnext, Nat.add_assoc]
    exact Nat.le_add_right ..
  | change ht h =>
    cases h with
    | add hblock hindex => exact Nat.le_succ _
    | delete hu => exact Nat.le_refl _
    | setParameters parameters => exact Nat.le_refl _
  | _ => exact Nat.le_refl _

/-- A node that is neither new nor the target of an operation is left alone. -/
theorem Effect.exists_comesFrom (hw : w.Sound) (h : w.Effect target w')
    (hu : u ∈ Forest.nodes w'.forest) (htarget : target ≠ some u.id) (hold : u.id < w.next) :
    ∃ v ∈ Forest.nodes w.forest, u.ComesFrom v := by
  cases h with
  | record journal => exact ⟨u, hu, .refl u⟩
  | list blocks => exact Forest.exists_comesFrom_list hu
  | sweep held => exact ⟨u, (Forest.nodes_sweep held w.forest).subset hu, .refl u⟩
  | @construct t kin fragments hid hancestor hflags hchildren =>
    -- dirtiness that is passed on modifies nothing
    obtain ⟨v, hv, huv⟩ : ∃ v ∈ Forest.nodes (t :: w.forest), u.ComesFrom v := by
      simp only at hu
      split at hu
      · rw [Forest.markDirtyAbove, Forest.nodes_mapCores] at hu
        obtain ⟨v, hv, rfl⟩ := List.mem_map.1 hu
        refine ⟨v, hv, Tree.comesFrom_mapCores (fun core => ?_) ?_⟩
        · split <;> rfl
        · split <;> exact fun h => h
      · exact ⟨u, hu, .refl u⟩
    rw [Forest.nodes_cons, List.mem_append] at hv
    rcases hv with hv | hv
    · -- the new nodes have new numbers
      have hnext : w.next ≤ v.id := next_le_of_mem_nodes hid hchildren hv
      rw [huv.id] at hold
      exact absurd hold (Nat.not_lt_of_le hnext)
    · exact ⟨v, hv, huv⟩
  | @change t g loose next ht h =>
    rw [Forest.markModified_eq, Forest.nodes_mapCores] at hu
    obtain ⟨v, hv, rfl⟩ := List.mem_map.1 hu
    have hid : (v.mapCores (Core.record t.core.id
        (((loose ++ w.forest.update t.id g).lineage t.core).map Tree.id))).id = v.id := by
      rw [Tree.id, Tree.mapCores_core, (Core.record_id_ancestor ..).1, Tree.id]
    rw [hid] at hold htarget
    have hother : v.id ≠ t.id := fun heq => htarget (by rw [heq])
    have hrecord := Tree.comesFrom_mapCores (u := v)
      (fun core => (Core.record_id_ancestor t.core.id
        (((loose ++ w.forest.update t.id g).lineage t.core).map Tree.id) core).1) (by
        rw [Core.record, if_neg (by simpa [Tree.id] using hother)]
        split <;> exact fun h => h)
    rcases h.exists_of_mem_nodes hw.tidy ht hv with hcore | ⟨x, hx, hcore, hchildren⟩ | ⟨hcore, -⟩
    · exact absurd (by rw [Tree.id, hcore, Tree.id]) hother
    · exact ⟨x, hx, hrecord.trans (.of_cores hcore hchildren)⟩
    · rw [Tree.id, hcore] at hold
      exact absurd hold (Nat.lt_irrefl _)
  | markClean t =>
    exact Forest.exists_comesFrom_update Tree.bare_markClean
      (fun v _ hx => Tree.exists_comesFrom_markClean v hx) hu
  | settle blocks root files =>
    obtain ⟨v, hv, huv⟩ := Forest.exists_comesFrom_update (Tree.bare_settle files)
      (fun v _ hx => Tree.exists_comesFrom_settle files v hx) hu
    obtain ⟨x, hx, hvx⟩ := Forest.exists_comesFrom_list hv
    exact ⟨x, hx, huv.trans hvx⟩

/-- A node that no operation of a run is aimed at is left alone. -/
theorem exists_comesFrom_run (hw : w.Sound) (operations : List Operation)
    (hu : u ∈ Forest.nodes (w.run operations).forest)
    (htarget : ∀ op ∈ operations, op.target? ≠ some u.id) (hold : u.id < w.next) :
    ∃ v ∈ Forest.nodes w.forest, u.ComesFrom v := by
  induction operations generalizing w with
  | nil => exact ⟨u, hu, .refl u⟩
  | cons op operations ih =>
    rw [run, List.foldl_cons] at hu
    have hstep : ∀ {target}, w.Effect target (w.perform op) → target ≠ some u.id →
        ∃ v ∈ Forest.nodes w.forest, u.ComesFrom v := by
      intro target heffect hne
      obtain ⟨v, hv, huv⟩ := ih (hw.effect heffect) hu
        (fun op hop => htarget op (List.mem_cons_of_mem _ hop))
        (Nat.lt_of_lt_of_le hold heffect.next_le)
      rw [huv.id] at hold hne
      obtain ⟨x, hx, hvx⟩ := heffect.exists_comesFrom hw hv hne hold
      exact ⟨x, hx, huv.trans hvx⟩
    rcases effect_perform hw.tidy op with heffect | heffect
    · exact hstep heffect (by simp)
    · exact hstep heffect (htarget op (List.mem_cons_self ..))

end Workspace

mutual
/-- What passes on from a node to its children holds in its whole tree. -/
theorem Tree.forall_nodes_of_children {P : Tree → Prop} (t : Tree)
    (hchildren : ∀ v ∈ t.nodes, P v → ∀ x ∈ v.children, P x) (ht : P t) : ∀ x ∈ t.nodes, P x := by
  match t with
  | .comment core text => exact fun x hx => by rwa [List.mem_singleton.1 hx]
  | .directive core statement => exact fun x hx => by rwa [List.mem_singleton.1 hx]
  | .block core statement children =>
    intro x hx
    have hinside := hchildren _ (Tree.self_mem_nodes _) ht
    rw [Tree.nodes] at hx
    rcases List.mem_cons.1 hx with rfl | hx
    · exact ht
    · exact Forest.forall_nodes_of_children children
        (fun v hv => hchildren v (Tree.mem_nodes_of_mem_children hv)) hinside x hx

theorem Forest.forall_nodes_of_children {P : Tree → Prop} (f : Forest)
    (hchildren : ∀ v ∈ Forest.nodes f, P v → ∀ x ∈ v.children, P x) (hf : ∀ t ∈ f, P t) :
    ∀ x ∈ Forest.nodes f, P x := by
  match f with
  | [] => simp
  | t :: f =>
    intro x hx
    rw [Forest.nodes_cons, List.mem_append] at hx
    rcases hx with hx | hx
    · exact Tree.forall_nodes_of_children t (fun v hv => hchildren v (by simp [hv]))
        (hf t (by simp)) x hx
    · exact Forest.forall_nodes_of_children f (fun v hv => hchildren v (by simp [hv]))
        (fun v hv => hf v (by simp [hv])) x hx
end

/-- Where nothing is modified, nothing is unsaved. -/
theorem Tree.unsavedFiles_of_unmodified (h : ∀ u ∈ t.nodes, u.core.modified = false) :
    t.unsavedFiles = [] := by
  have hnone : t.dirtyNodes.filter (fun u => u.core.modified) = [] := by
    rw [List.filter_eq_nil_iff]
    intro u hu
    simp [h u (t.reached_sublist.subset hu)]
  rw [Tree.unsavedFiles, hnone, List.foldl_nil]

namespace Workspace

/-- A document that was opened has nothing unsaved as long as no operation is aimed at it. -/
theorem unsavedFiles_of_openDocument (hw : w.Sound) {document : Fragment} {policy : Policy}
    {root : Tree} (hopen : w.openDocument document policy = .ok (root, w'))
    {operations : List Operation}
    (htarget : ∀ op ∈ operations, ∀ u ∈ root.nodes, op.target? ≠ some u.id)
    (ht : t ∈ Forest.nodes (w'.run operations).forest) (hid : ∃ u ∈ root.nodes, u.id = t.id) :
    t.unsavedFiles = [] := by
  obtain ⟨kin, fragments, hroot, hancestor, -, hmodified, hchildren, hw'⟩ := construct_cases hopen
  have hsound : w'.Sound := by
    rw [hw']
    refine hw.construct hroot (fun id hid => ?_) hchildren w.journal
    rw [hancestor] at hid
    simp at hid
  have hmem : root ∈ w'.forest := by
    rw [hw']
    exact List.mem_cons_self ..
  have hfresh : ∀ u ∈ root.nodes, u.core.modified = false := by
    intro u hu
    rw [root.nodes_eq, hchildren] at hu
    rcases List.mem_cons.1 hu with rfl | hu
    · exact hmodified
    · obtain ⟨a, id, fragment, hcore, -⟩ :=
        Forest.core_ofFragments kin w.next (w.next + 1) fragments (Nat.lt_succ_self _) u hu
      rw [hcore]
      rfl
  have hnodes := Forest.nodes_sublist w'.forest (Forest.mem_nodes_of_mem hmem)
  -- a node with a number of the document comes from the node of the document
  have hcomes : ∀ u ∈ Forest.nodes (w'.run operations).forest, (∃ v ∈ root.nodes, v.id = u.id) →
      ∃ v ∈ root.nodes, u.ComesFrom v := by
    rintro u hu ⟨v, hv, hvu⟩
    obtain ⟨x, hx, hux⟩ := exists_comesFrom_run hsound operations hu
      (fun op hop => hvu ▸ htarget op hop v hv) (hvu ▸ hsound.lt_next v (hnodes.subset hv))
    rw [hsound.tidy.eq_of_id_eq hx (hnodes.subset hv) (hux.id.symm.trans hvu.symm)] at hux
    exact ⟨v, hv, hux⟩
  have hsub := Forest.nodes_sublist _ ht
  have hall := Tree.forall_nodes_of_children (P := fun u => ∃ v ∈ root.nodes, v.id = u.id) t
    (fun u hu hunode x hx => ?_) hid
  · refine Tree.unsavedFiles_of_unmodified fun u hu => ?_
    obtain ⟨v, hv, huv⟩ := hcomes u (hsub.subset hu) (hall u hu)
    have hv' := hfresh v hv
    by_contra hmodified
    simp [huv.modified (eq_true_of_ne_false hmodified)] at hv'
  · obtain ⟨v, hv, huv⟩ := hcomes u (hsub.subset hu) hunode
    obtain ⟨y, hy, hxy⟩ := huv.children x hx
    exact ⟨y, Tree.mem_nodes_of_child hv hy, hxy.symm⟩

/-- After any operations on documents and nodes made by hand, a modified node is dirty, a dirty
child has a dirty block around it, and the unsaved files of a node are just those of the modified
nodes in its tree. A document that is opened then has none as long as no operation is aimed at a
node of it. -/
theorem unsavedFiles_run (operations : List Operation) :
    (∀ t ∈ Forest.nodes (empty.run operations).forest, t.IsMarked ∧
      ∀ path, t.unsavedFiles.any (· == path) =
        t.nodes.any fun u => u.core.modified && u.core.path == path) ∧
    ∀ document policy root w further,
      (empty.run operations).openDocument document policy = .ok (root, w) →
      (∀ op ∈ further, ∀ u ∈ root.nodes, op.target? ≠ some u.id) →
      ∀ t ∈ Forest.nodes (w.run further).forest, (∃ u ∈ root.nodes, u.id = t.id) →
        t.unsavedFiles = [] := by
  have hsound := Sound.empty.run operations
  have hmarked := isMarked_run Sound.empty (by simp [empty]) operations
  constructor
  · intro t ht
    refine ⟨hmarked t ht, fun path => Tree.any_unsavedFiles (fun u hu => ?_) path⟩
    exact hmarked u ((Forest.nodes_sublist _ ht).subset hu)
  · intro document policy root w further hopen htarget t ht hid
    exact unsavedFiles_of_openDocument hsound hopen htarget ht hid

/-- A block is taken out of its document and a statement in it is changed, then the document is
opened anew, and the first one is changed and cleaned. -/
theorem unsavedFiles_run_reopened :
    ∃ document root w, Fragment.read ⟨⟨"site.conf"⟩, "<A>\nB 1\n</A>\n"⟩ = .ok document ∧
      (empty.run [.construct ⟨none, none, false, some (.parsed document), none⟩ (.block "" []) true,
        .edit 0 (.delete 0 1), .edit 1 (.setParameters 2 ["2"])]).openDocument document
          Policy.default = .ok (root, w) ∧
      (∀ t ∈ Forest.nodes (empty.run [
          .construct ⟨none, none, false, some (.parsed document), none⟩ (.block "" []) true,
          .edit 0 (.delete 0 1), .edit 1 (.setParameters 2 ["2"])]).forest, t.IsMarked) ∧
      ∀ t ∈ Forest.nodes (w.run [.edit 1 (.setParameters 2 []), .markClean 1]).forest,
        (∃ u ∈ root.nodes, u.id = t.id) → t.unsavedFiles = [] := by
  have hopen : ((Fragment.read ⟨⟨"site.conf"⟩, "<A>\nB 1\n</A>\n"⟩).toOption.any fun document =>
      ((empty.run [
        .construct ⟨none, none, false, some (.parsed document), none⟩ (.block "" []) true,
        .edit 0 (.delete 0 1), .edit 1 (.setParameters 2 ["2"])]).openDocument document
          Policy.default).toOption.any fun opened => opened.1.nodes.all fun u => u.id != 2) =
      true := by
    decide +kernel
  obtain ⟨document, hread, hopen⟩ := (Option.any_eq_true ..).1 hopen
  obtain ⟨⟨root, w⟩, hopen, hids⟩ := (Option.any_eq_true ..).1 hopen
  have hopen := eq_ok_of_toOption hopen
  refine ⟨document, root, w, eq_ok_of_toOption hread, hopen,
    fun t ht => ((unsavedFiles_run _).1 t ht).1,
    (unsavedFiles_run _).2 document Policy.default root w _ hopen ?_⟩
  intro op hop u hu
  have hid : u.id ≠ 2 := by simpa using List.all_eq_true.1 hids u hu
  have htarget : op.target? = some 2 ∨ op.target? = none := by
    rcases List.mem_cons.1 hop with rfl | hop
    · exact .inl rfl
    · rw [List.mem_singleton.1 hop]
      exact .inr rfl
  rcases htarget with h | h <;> rw [h]
  · exact fun heq => hid (Option.some.inj heq).symm
  · simp

end Workspace

end HttpdConf
