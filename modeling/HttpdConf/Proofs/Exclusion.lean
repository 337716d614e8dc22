import HttpdConf.Proofs.Ancestry

/-!
# Searches that exclude inactive blocks

A search that excludes inactive blocks goes down from a block and skips those that are not active.
Whether a node is in force is found by going up from it. Below a block that is in force and active
both say the same, and below any other block nothing is in force.

## Main results

* `Workspace.Sound.enabled_child`: a child is in force when what is inside its block is
* `Tree.descendants_true`: a walk that excludes inactive blocks meets what is in force
* `Workspace.exclusion_run`: searches that exclude inactive blocks, after any operations
-/

namespace HttpdConf

variable {w : Workspace} {t u b : Tree}

namespace Workspace.Sound

variable (hw : w.Sound)
include hw

/-- The root of a child is that of its block. -/
theorem root_child (ht : t ∈ Forest.nodes w.forest) (hu : u ∈ t.children) :
    w.forest.root u = w.forest.root t := by
  rw [Forest.root, Forest.root, hw.lineage_child ht hu, List.getLast?_cons, Option.getD_some]

/-- A child is in force when what is inside its block is. -/
theorem enabled_child (ht : t ∈ Forest.nodes w.forest) (hu : u ∈ t.children) :
    w.forest.enabled u = w.enabledInside t := by
  rw [Forest.enabled, hw.lineage_child ht hu, hw.root_child ht hu, List.all_cons, enabledInside,
    Forest.enabled, Bool.and_assoc, Bool.and_comm]

/-- Below a block that is not in force or not active, nothing is in force. -/
theorem enabled_of_not_enabledInside (hb : b ∈ Forest.nodes w.forest)
    (hinside : w.enabledInside b = false) :
    ∀ u ∈ b.descendants false, w.forest.enabled u = false := by
  rw [Tree.descendants_false]
  -- from the children of the block down: what is in a node that is not in force is not either
  refine Forest.forall_nodes_of_children (P := fun x => w.forest.enabled x = false) b.children
    (fun v hv hdisabled x hx => ?_) fun x hx => ?_
  · have hvnode := Forest.mem_nodes_of_below hb hv
    rw [hw.enabled_child hvnode hx, enabledInside, hdisabled, Bool.false_and]
  · rw [hw.enabled_child hb hx, hinside]

end Workspace.Sound

mutual
/-- Below a block that is in force and active, a walk that excludes inactive blocks meets what is in
force and active, in the same order as a walk that excludes nothing. -/
theorem Tree.descendants_true (hw : w.Sound) (t : Tree) (ht : t ∈ Forest.nodes w.forest)
    (hinside : w.enabledInside t = true) :
    t.descendants true =
      (t.descendants false).filter fun u => w.forest.enabled u && u.isActive := by
  match t with
  | .comment core text => simp [Tree.descendants]
  | .directive core statement => simp [Tree.descendants]
  | .block core statement children =>
    rw [Tree.descendants, Tree.descendants]
    refine Forest.walk_true hw children (fun u hu => ?_) fun u hu => ?_
    · exact Forest.mem_nodes_of_child ht hu
    · exact (hw.enabled_child ht hu).trans hinside

theorem Forest.walk_true (hw : w.Sound) (f : Forest) (hf : ∀ t ∈ f, t ∈ Forest.nodes w.forest)
    (henabled : ∀ t ∈ f, w.forest.enabled t = true) :
    Forest.walk true f =
      (Forest.walk false f).filter fun u => w.forest.enabled u && u.isActive := by
  match f with
  | [] => simp [Forest.walk]
  | t :: f =>
    have hrest := Forest.walk_true hw f (fun u hu => hf u (List.mem_cons_of_mem _ hu))
      fun u hu => henabled u (List.mem_cons_of_mem _ hu)
    have htnode := hf t (List.mem_cons_self ..)
    have hton := henabled t (List.mem_cons_self ..)
    have hall : Forest.walk false (t :: f) = t :: (t.descendants false ++ Forest.walk false f) := by
      simp [Forest.walk]
    rw [hall, Forest.walk, List.filter_cons, List.filter_append, hton, Bool.true_and, ← hrest]
    by_cases hactive : t.isActive = true
    · have hbelow := Tree.descendants_true hw t htnode (by
        rw [Workspace.enabledInside, hton, hactive]
        rfl)
      simp [hactive, ← hbelow]
    · -- what is skipped is not in force
      have hskipped := hw.enabled_of_not_enabledInside htnode (by
        simp [Workspace.enabledInside, hactive])
      have hnone : (t.descendants false).filter
          (fun u => w.forest.enabled u && u.isActive) = [] := by
        rw [List.filter_eq_nil_iff]
        intro u hu
        simp [hskipped u hu]
      simp [hactive, hnone]
end

namespace Workspace

/-- After any operations, searches below a block that is in force and active find, when they exclude
inactive blocks, just what is in force, for blocks just what is active as well. Below any other
block nothing is in force. -/
theorem exclusion_run {operations : List Operation} (hw : empty.run operations = w)
    (hb : b ∈ Forest.nodes w.forest) :
    (w.forest.enabled b = true → b.isActive = true → ∀ name,
      b.findDirectives name true = (b.findDirectives name false).filter w.forest.enabled ∧
        b.findBlocks name true =
          (b.findBlocks name false).filter fun u => w.forest.enabled u && u.isActive) ∧
      (¬ (w.forest.enabled b = true ∧ b.isActive = true) →
        ∀ u ∈ b.descendants false, w.forest.enabled u = false) := by
  have hsound : w.Sound := hw ▸ Sound.empty.run operations
  refine ⟨fun hon hactive name => ?_, fun hoff => ?_⟩
  · have hwalk := Tree.descendants_true hsound b hb (by rw [enabledInside, hon, hactive]; rfl)
    rw [Tree.findDirectives, Tree.findDirectives, Tree.findBlocks, Tree.findBlocks, hwalk]
    simp only [List.filter_filter]
    refine ⟨List.filter_congr fun u _ => ?_, List.filter_congr fun u _ => Bool.and_comm ..⟩
    -- directives have no condition of their own
    cases u with
    | directive core statement => simp [Tree.isActive, Tree.isDirective, Bool.and_comm]
    | _ => simp [Tree.isDirective]
  · refine hsound.enabled_of_not_enabledInside hb ?_
    rwa [Bool.eq_false_iff, enabledInside, Ne, Bool.and_eq_true]

/-- The condition of a block is changed to one that holds; another block stays inactive, and so does
what is in it. -/
theorem exclusion_run_conditional :
    ∃ document w root b,
      Fragment.read ⟨⟨"site.conf"⟩,
        "<IfModule a>\nB 1\n<If x>\nB 2\n</If>\n</IfModule>\n"⟩ = .ok document ∧
      w = empty.run [
        .construct ⟨none, none, false, some (.parsed document),
          some (Policy.default.withModule "ssl")⟩ (.block "" []) true,
        .edit 0 (.setParameters 1 ["mod_ssl.c"])] ∧
      w.forest.find? 0 = some root ∧ w.forest.find? 3 = some b ∧
      (root.findDirectives "b" true).map Tree.id = [2] ∧
      root.findDirectives "b" true = (root.findDirectives "b" false).filter w.forest.enabled ∧
      ∀ u ∈ b.descendants false, w.forest.enabled u = false := by
  have hfacts : ((Fragment.read ⟨⟨"site.conf"⟩,
        "<IfModule a>\nB 1\n<If x>\nB 2\n</If>\n</IfModule>\n"⟩).toOption.any fun document =>
      let w := empty.run [
        .construct ⟨none, none, false, some (.parsed document),
          some (Policy.default.withModule "ssl")⟩ (.block "" []) true,
        .edit 0 (.setParameters 1 ["mod_ssl.c"])]
      (w.forest.find? 0).any fun root => (w.forest.find? 3).any fun b =>
        w.forest.enabled root && (root.isActive && (!b.isActive &&
          (root.findDirectives "b" true).map Tree.id == [2]))) = true := by
    decide +kernel
  obtain ⟨document, hread, hfacts⟩ := (Option.any_eq_true ..).1 hfacts
  simp only at hfacts
  generalize hw : empty.run _ = w at hfacts
  obtain ⟨root, hroot, hfacts⟩ := (Option.any_eq_true ..).1 hfacts
  obtain ⟨b, hb, hfacts⟩ := (Option.any_eq_true ..).1 hfacts
  simp only [Bool.and_eq_true, Bool.not_eq_true', beq_iff_eq] at hfacts
  obtain ⟨hon, hactive, hinactive, hfound⟩ := hfacts
  exact ⟨document, w, root, b, eq_ok_of_toOption hread, hw.symm, hroot, hb, hfound,
    ((exclusion_run hw (Forest.mem_nodes_of_find? hroot).1).1 hon hactive "b").1,
    (exclusion_run hw (Forest.mem_nodes_of_find? hb).1).2 fun h => by simp [hinactive] at h⟩

end Workspace

end HttpdConf
