import HttpdConf.Proofs.Searches

/-!
# What edits leave alone

An edit changes one node: its children or its parameters. That it did is recorded by flags, on the
node itself and on the live blocks above it. Nothing else goes on in a workspace. To say so, every
node has a row: what the node itself has and says, and the numbers of its children. The rows of all
live nodes tell the whole forest, and an edit leaves all of them alone but a few, of which it is
known what becomes of them.

The blocks above a node are found by links, from the outermost block of a tree on to the block that
the tree was made under. So flags go up from a deleted node, too, and from a node that was never in
a block.

## Main definitions

* `Row`, `Workspace.row?`: a node without what is inside it
* `Workspace.Touches`: one node is changed, which is recorded on the way up

## Main results

* `Workspace.find?_of_alters`: all nodes but a new one are found again, changed in place
* `Workspace.ids_lineage_of_alters`: the blocks above a node stay above it
* `Workspace.touches_run`: after any operations, an edit touches its node and nothing else
-/

namespace HttpdConf

variable {w w' : Workspace} {t u v x : Tree} {f : Forest} {g : Tree → Tree} {loose : Forest}
  {next id : NodeId}

/-! ## Rows -/

/-- A node without what is inside it, and the numbers of its children in order. -/
structure Row where
  own : Tree
  children : List NodeId

namespace Row

/-- Change what the node has. -/
def mapCore (k : Core → Core) (r : Row) : Row := { r with own := r.own.mapCore k }

/-- Change the statement of the node. -/
def mapStatement (k : Statement → Statement) (r : Row) : Row :=
  { r with own := r.own.mapStatement k }

/-- Change which children the node has. -/
def mapChildren (k : List NodeId → List NodeId) (r : Row) : Row :=
  { r with children := k r.children }

/-- The node has a change of its own. -/
def touched (r : Row) : Row := r.mapCore Core.touched

/-- A node inside has a change. -/
def stirred (r : Row) : Row := r.mapCore Core.stirred

theorem mapCore_congr {k l : Core → Core} {r : Row} (h : k r.own.core = l r.own.core) :
    r.mapCore k = r.mapCore l := by
  obtain ⟨own, children⟩ := r
  cases own <;> simp_all [mapCore, Tree.mapCore, Tree.core]

theorem mapCore_eq_self {k : Core → Core} {r : Row} (h : k r.own.core = r.own.core) :
    r.mapCore k = r := by
  obtain ⟨own, children⟩ := r
  cases own <;> simp_all [mapCore, Tree.mapCore, Tree.core]

end Row

def Tree.row (t : Tree) : Row := ⟨t.withChildren fun _ => [], t.children.map Tree.id⟩

/-- The row of a live node. -/
def Workspace.row? (w : Workspace) (id : NodeId) : Option Row := (w.forest.find? id).map Tree.row

theorem Tree.row_core (t : Tree) : t.row.own.core = t.core := Tree.withChildren_core _

theorem Tree.row_withChildren (ht : t.isBlock = true) {k : Forest → Forest}
    {l : List NodeId → List NodeId} (h : (k t.children).map Tree.id = l (t.children.map Tree.id)) :
    (t.withChildren k).row = t.row.mapChildren l := by
  obtain ⟨core, statement, children, rfl⟩ := Tree.exists_of_isBlock ht
  rw [Tree.row, Tree.withChildren_children rfl, h]
  rfl

theorem Tree.row_mapStatement (k : Statement → Statement) (t : Tree) :
    (t.mapStatement k).row = t.row.mapStatement k := by
  cases t <;> rfl

/-- A node that is not the changed one has children of the same numbers. -/
theorem Tree.row_update (hg : ∀ v, (g v).core = v.core) (t : Tree) :
    (t.update id g).row = if t.id = id then (g t).row else t.row := by
  have hid : ∀ v : Tree, (v.update id g).id = v.id := fun v =>
    congrArg Core.id (Tree.update_core fun _ => hg v)
  split
  · rw [Tree.update_self ‹_›]
  · rename_i hne
    have hself : (t.core.id == id) = false := beq_false_of_ne hne
    have hids : (t.children.map (Tree.update id g)).map Tree.id = t.children.map Tree.id := by
      rw [List.map_map]
      exact List.map_congr_left fun v _ => hid v
    cases t with
    | block core statement children =>
      rw [Tree.update, if_neg (by rw [Bool.not_eq_true]; exact hself), Forest.update_eq_map]
      rw [Tree.children] at hids
      rw [Tree.row, Tree.children, hids]
      rfl
    | comment core text => rw [Tree.update, if_neg (by rw [Bool.not_eq_true]; exact hself)]
    | directive core statement => rw [Tree.update, if_neg (by rw [Bool.not_eq_true]; exact hself)]

theorem Tree.row_mapCores {k : Core → Core} (hk : ∀ core, (k core).id = core.id) (t : Tree) :
    (t.mapCores k).row = t.row.mapCore k := by
  have hids : (t.children.map (Tree.mapCores k)).map Tree.id = t.children.map Tree.id := by
    rw [List.map_map]
    exact List.map_congr_left fun v _ => by
      rw [Function.comp_apply, Tree.id, Tree.mapCores_core, hk, Tree.id]
  rw [Tree.row, Tree.mapCores_children, hids]
  cases t <;> simp [Tree.row, Tree.mapCores, Tree.withChildren, Row.mapCore, Tree.mapCore]

theorem Forest.find?_mapCores {k : Core → Core} (hk : ∀ core, (k core).id = core.id) (f : Forest)
    (id : NodeId) : (Forest.mapCores k f).find? id = (f.find? id).map (Tree.mapCores k) := by
  rw [Forest.find?_eq, Forest.find?_eq, Forest.nodes_mapCores, List.find?_map]
  have hid : (fun t : Tree => t.id == id) ∘ Tree.mapCores k = fun t => t.id == id := by
    funext t
    rw [Function.comp_apply, Tree.id, Tree.mapCores_core, hk, Tree.id]
  rw [hid]

/-! ## Records -/

namespace Row

variable {around : List NodeId} {r : Row}

/-- A change is recorded on the node itself. -/
theorem record_self (h : r.own.core.id = id) : r.mapCore (Core.record id around) = r.touched :=
  mapCore_congr (if_pos (beq_iff_eq.2 h))

/-- A change is recorded on a block around the node. -/
theorem record_of_mem (hne : r.own.core.id ≠ id) (h : r.own.core.id ∈ around) :
    r.mapCore (Core.record id around) = r.stirred := by
  refine mapCore_congr ?_
  rw [Core.record, if_neg (by simpa using hne), if_pos (by simpa using h)]

/-- Nothing is recorded on other nodes. -/
theorem record_of_not_mem (hne : r.own.core.id ≠ id) (h : r.own.core.id ∉ around) :
    r.mapCore (Core.record id around) = r := by
  refine mapCore_eq_self ?_
  rw [Core.record, if_neg (by simpa using hne), if_neg (by simpa using h)]

end Row

/-- The rows after a change is recorded. -/
theorem Forest.row_record (core : Core) (around : List NodeId) (f : Forest) (id : NodeId) :
    ((Forest.mapCores (Core.record core.id around) f).find? id).map Tree.row =
      ((f.find? id).map Tree.row).map (Row.mapCore (Core.record core.id around)) := by
  have hrecord : ∀ c, (Core.record core.id around c).id = c.id := fun c =>
    (Core.record_id_ancestor ..).1
  rw [Forest.find?_mapCores hrecord, Option.map_map, Option.map_map]
  exact congrArg (Option.map · _) (funext fun v => Tree.row_mapCores hrecord v)

/-! ## Altered nodes -/

namespace Workspace

/-- An altered node keeps its children, or they are taken out of it. -/
theorem Alters.kept (h : w.Alters t g loose next) (hw : w.Sound) (ht : t ∈ Forest.nodes w.forest) :
    ∀ u ∈ t.children, u ∈ loose ∨ u ∈ (g t).children := by
  intro u hu
  cases h with
  | @add content standing index hblock hindex =>
    rw [Tree.withChildren_children hblock]
    exact .inr ((List.mem_insertIdx hindex).2 (.inr hu))
  | delete hv =>
    rw [Tree.withChildren_children (isBlock_of_mem_children hv)]
    exact kept_of_delete hw ht hv u hu
  | setParameters parameters =>
    rw [Tree.mapStatement_children]
    exact .inr hu

theorem Alters.id_update (h : w.Alters t g loose next) (v : Tree) : (v.update id g).id = v.id :=
  congrArg Core.id (Tree.update_core fun _ => h.core v)

/-- All nodes but a new one are found again, changed in place. -/
theorem find?_of_alters (hw : w.Sound) (ht : t ∈ Forest.nodes w.forest)
    (h : w.Alters t g loose next) (hid : id ≠ w.next) :
    Forest.find? (loose ++ w.forest.update t.id g) id =
      (w.forest.find? id).map (Tree.update t.id g) := by
  cases hfind : w.forest.find? id with
  | some v =>
    obtain ⟨hv, rfl⟩ := Forest.mem_nodes_of_find? hfind
    have hmem := update_mem_of_kept hw ht (h.kept hw ht) hv
    have hfind' := (hw.alters ht h w.journal).tidy.find?_eq hmem
    rwa [h.id_update] at hfind'
  | none =>
    rw [Forest.find?_eq, List.find?_eq_none] at hfind
    rw [Option.map_none, Forest.find?_eq, List.find?_eq_none]
    intro u hu huid
    -- every node but a new one has the number of a node that was there
    have hold : ∀ v ∈ Forest.nodes w.forest, u.core ≠ v.core := fun v hv hcore =>
      hfind v hv (by rwa [Tree.id, ← hcore])
    rcases h.exists_of_mem_nodes hw.tidy ht hu with hcore | ⟨v, hv, hcore, -⟩ | ⟨hcore, -⟩
    · exact hold t ht hcore
    · exact hold v hv hcore
    · rw [Tree.id, hcore] at huid
      exact hid (beq_iff_eq.1 huid).symm

/-- The blocks above a node stay above it. -/
theorem ids_lineage_of_alters (hw : w.Sound) (ht : t ∈ Forest.nodes w.forest)
    (h : w.Alters t g loose next) (hu : u ∈ Forest.nodes w.forest) :
    (Forest.lineage (loose ++ w.forest.update t.id g) u.core).map Tree.id =
      (w.forest.lineage u.core).map Tree.id := by
  -- links are the same before and after, and go to older nodes
  have hsound := hw.alters ht h w.journal
  induction hn : u.id using Nat.strong_induction_on generalizing u with
  | _ n ih =>
    have hcore : ∀ v : Tree, (v.update t.id g).core = v.core := fun v =>
      Tree.update_core fun _ => h.core v
    have hmem := update_mem_of_kept hw ht (h.kept hw ht) hu
    have hlineage := hsound.lineage_eq hmem
    rw [hcore] at hlineage
    rw [hlineage, hw.lineage_eq hu, Forest.ancestor?, Forest.ancestor?]
    cases hlink : u.core.ancestor with
    | none => rfl
    | some a =>
      have ha : a < u.id := hw.older u hu a hlink
      have hnew : a ≠ w.next := Nat.ne_of_lt (Nat.lt_trans ha (hw.lt_next u hu))
      rw [Option.bind_some, Option.bind_some, find?_of_alters hw ht h hnew]
      cases hfind : w.forest.find? a with
      | none => rfl
      | some b =>
        obtain ⟨hb, rfl⟩ := Forest.mem_nodes_of_find? hfind
        simp only [Option.map_some, List.map_cons, hcore, h.id_update, ih b.id (hn ▸ ha) hb rfl]

/-- The row of a node that was there is that of the altered node, or it is as it was. -/
theorem row_of_alters (hw : w.Sound) (ht : t ∈ Forest.nodes w.forest)
    (h : w.Alters t g loose next) (hu : u ∈ Forest.nodes w.forest) :
    (Forest.find? (loose ++ w.forest.update t.id g) u.id).map Tree.row =
      some (if u.id = t.id then (g u).row else u.row) := by
  rw [find?_of_alters hw ht h (Nat.ne_of_lt (hw.lt_next u hu)), hw.tidy.find?_eq hu,
    Option.map_some, Option.map_some, Tree.row_update h.core]

/-! ## Touched nodes -/

/-- One node is changed, and there may be a new one. The change is recorded on the node and on the
live blocks above it, and nothing else is different. -/
structure Touches (w w' : Workspace) (x : Tree) (changed : Row) (new : Option Row) : Prop where
  target : w'.row? x.id = some changed.touched
  above : ∀ u ∈ w.forest.lineage x.core, w'.row? u.id = some u.row.stirred
  new : w'.row? w.next = new
  others : ∀ id, id ≠ x.id → id ≠ w.next → (∀ u ∈ w.forest.lineage x.core, u.id ≠ id) →
    w'.row? id = w.row? id
  journal : w'.journal = w.journal

/-- A change that is recorded touches the altered node. -/
theorem touches_of_alters (hw : w.Sound) (hx : x ∈ Forest.nodes w.forest)
    (h : w.Alters x g loose next) :
    w.Touches ⟨Forest.markModified (loose ++ w.forest.update x.id g) x.core, next, w.journal⟩ x
      (g x).row ((Forest.find? (loose ++ w.forest.update x.id g) w.next).map Tree.row) := by
  rw [Forest.markModified_eq, ids_lineage_of_alters hw hx h hx]
  have hbelow : ∀ u ∈ w.forest.lineage x.core, u.id < x.id := fun u hu =>
    hw.lt_of_mem_lineage hx hu
  have hkeep : ∀ v : Tree, v.id ≠ x.id → (∀ u ∈ w.forest.lineage x.core, u.id ≠ v.id) →
      v.row.mapCore (Core.record x.core.id ((w.forest.lineage x.core).map Tree.id)) = v.row := by
    intro v hne hnot
    refine Row.record_of_not_mem (by rwa [Tree.row_core]) ?_
    rw [Tree.row_core, List.mem_map]
    exact fun ⟨u, hu, hid⟩ => hnot u hu hid
  refine ⟨?_, fun u hu => ?_, ?_, fun id hne hnew hnot => ?_, rfl⟩
  · rw [row?, Forest.row_record, row_of_alters hw hx h hx, if_pos rfl, Option.map_some,
      Row.record_self (by rw [Tree.row_core, h.core])]
  · have hne : u.id ≠ x.id := Nat.ne_of_lt (hbelow u hu)
    rw [row?, Forest.row_record, row_of_alters hw hx h (hw.tidy.mem_lineageUpTo hu).1,
      if_neg hne, Option.map_some, Row.record_of_mem (by rwa [Tree.row_core])
        (by rw [Tree.row_core]; exact List.mem_map_of_mem hu)]
  · rw [row?, Forest.row_record]
    cases hfind : Forest.find? (loose ++ w.forest.update x.id g) w.next with
    | none => rfl
    | some v =>
      -- the new node is younger than all of those that are marked
      have hid : v.id = w.next := (Forest.mem_nodes_of_find? hfind).2
      have hlt : x.id < v.id := hid ▸ hw.lt_next x hx
      rw [Option.map_some, Option.map_some, hkeep v (Nat.ne_of_gt hlt) fun u hu =>
        Nat.ne_of_lt (Nat.lt_trans (hbelow u hu) hlt)]
  · rw [row?, Forest.row_record, find?_of_alters hw hx h hnew, row?]
    cases hfind : w.forest.find? id with
    | none => rfl
    | some v =>
      obtain ⟨-, rfl⟩ := Forest.mem_nodes_of_find? hfind
      rw [Option.map_some, Option.map_some, Option.map_some, Option.map_some,
        Tree.row_update h.core, if_neg hne, hkeep v hne hnot]

/-- A number that was not given has no node. -/
theorem Sound.find?_next (hw : w.Sound) : w.forest.find? w.next = none := by
  cases hfind : w.forest.find? w.next with
  | none => rfl
  | some v =>
    obtain ⟨hv, hid⟩ := Forest.mem_nodes_of_find? hfind
    exact absurd (hw.lt_next v hv) (Nat.not_lt_of_le (Nat.le_of_eq hid.symm))

theorem Sound.nodup_ids_children (hw : w.Sound) (ht : t ∈ Forest.nodes w.forest) :
    (t.children.map Tree.id).Nodup := by
  have hnodup := hw.tidy.nodup_nodes ht
  rw [t.nodes_eq, List.map_cons] at hnodup
  exact ((Forest.sublist_nodes t.children).map Tree.id).nodup hnodup.of_cons

/-- An addition puts one node among the children, at the place that was asked for. -/
theorem touches_addChild (hw : w.Sound) (hx : x ∈ Forest.nodes w.forest) (hblock : x.isBlock = true)
    {content : NodeContent} {position : Option Nat} {new : Tree}
    (h : w.addChild x content position = .ok (new, w')) :
    position.getD x.children.length ≤ x.children.length ∧
      new.core = w.childCore x ∧ new.children = [] ∧
      w.Touches w' x (x.row.mapChildren fun ids =>
        ids.insertIdx (position.getD ids.length) w.next) (some new.row) := by
  obtain ⟨index, rfl, hindex, rfl, rfl⟩ := addChild_cases h
  have halters : w.Alters x (Tree.withChildren (List.insertIdx · (position.getD x.children.length)
      (content.tree (w.childCore x) (w.enabledInside x) []))) [] (w.next + 1) := .add hblock hindex
  have htouches := touches_of_alters hw hx halters
  have htidy := (hw.alters hx halters w.journal).tidy
  have hcore := content.tree_core (w.childCore x) (w.enabledInside x) []
  have hempty := content.tree_children (w.childCore x) (w.enabledInside x)
  generalize content.tree (w.childCore x) (w.enabledInside x) [] = new at *
  have hid : new.id = w.next := congrArg Core.id hcore
  -- the new node is found among the children of the block
  have hmem : new ∈ Forest.nodes ([] ++ Forest.update x.id (Tree.withChildren fun children =>
      children.insertIdx (position.getD x.children.length) new) w.forest) := by
    refine Forest.mem_nodes_of_child (Forest.mem_nodes_update w.forest hw.tidy.nodup hx) ?_
    rw [Tree.withChildren_children hblock]
    exact (List.mem_insertIdx hindex).2 (.inl rfl)
  rw [← hid, htidy.find?_eq hmem, hid, Tree.row_withChildren hblock
    (l := fun ids => ids.insertIdx (position.getD ids.length) w.next)
    (by rw [List.map_insertIdx, hid, List.length_map])] at htouches
  exact ⟨hindex, hcore, hempty, htouches⟩

/-- A deletion takes one node out of the children. -/
theorem touches_deleteChild (hw : w.Sound) (hx : x ∈ Forest.nodes w.forest) {child : NodeId}
    (h : w.deleteChild x child = .ok w') :
    child ∈ x.row.children ∧
      w.Touches w' x (x.row.mapChildren fun ids => ids.erase child) none := by
  obtain ⟨u, hu, rfl, rfl⟩ := deleteChild_cases h
  have halters : w.Alters x _ [u] w.next := .delete hu
  have htouches := touches_of_alters hw hx halters
  have hids : (x.children.filter fun v => v.id != u.id).map Tree.id =
      (x.children.map Tree.id).erase u.id := by
    rw [(hw.nodup_ids_children hx).erase_eq_filter, List.filter_map]
    rfl
  rw [(hw.alters hx halters w.journal).find?_next, Tree.row_withChildren
    (isBlock_of_mem_children hu) (l := fun ids => ids.erase u.id) hids] at htouches
  exact ⟨List.mem_map_of_mem hu, htouches⟩

/-- New parameters replace the old ones. -/
theorem touches_setParameters (hw : w.Sound) (hx : x ∈ Forest.nodes w.forest)
    {parameters : List String} (h : w.setParameters x parameters = .ok w') :
    w.Touches w' x (x.row.mapStatement ({ · with parameters })) none := by
  rw [Workspace.setParameters] at h
  split at h
  · simp at h
  · obtain rfl := Except.ok.inj h
    rw [Forest.mapStatements_eq_update _ _ w.forest hw.tidy.nodup]
    have halters : w.Alters x _ [] w.next := .setParameters parameters
    have htouches := touches_of_alters hw hx halters
    rw [(hw.alters hx halters w.journal).find?_next, Tree.row_mapStatement] at htouches
    exact htouches

/-- After any operations, an edit that succeeds touches its node and nothing else. An addition puts
one new node with nothing inside among the children, a deletion takes one child out of them, and
new parameters replace the old ones. -/
theorem touches_run {operations : List Operation} (hw : empty.run operations = w)
    (hx : x ∈ Forest.nodes w.forest) :
    (x.isBlock = true → ∀ content position new w',
      w.addChild x content position = .ok (new, w') →
        position.getD x.children.length ≤ x.children.length ∧
          new.core = w.childCore x ∧ new.children = [] ∧
          w.Touches w' x (x.row.mapChildren fun ids =>
            ids.insertIdx (position.getD ids.length) w.next) (some new.row)) ∧
    (∀ child w', w.deleteChild x child = .ok w' →
      child ∈ x.row.children ∧ w.Touches w' x (x.row.mapChildren fun ids => ids.erase child) none) ∧
    ∀ parameters w', w.setParameters x parameters = .ok w' →
      w.Touches w' x (x.row.mapStatement ({ · with parameters })) none := by
  have hsound : w.Sound := hw ▸ Sound.empty.run operations
  exact ⟨fun hblock _ _ _ _ h => touches_addChild hsound hx hblock h,
    fun _ _ h => touches_deleteChild hsound hx h, fun _ _ h => touches_setParameters hsound hx h⟩

/-- A block that was deleted is edited: the document that it was in hears of it. -/
theorem touches_run_deleted :
    ∃ document w x new w₁ w₂ w₃,
      Fragment.read ⟨⟨"site.conf"⟩, "<A>\nB 1\n</A>\nC 2\n"⟩ = .ok document ∧
      w = empty.run [
        .construct ⟨none, none, false, some (.parsed document), none⟩ (.block "" []) true,
        .edit 0 (.delete 0 1)] ∧
      w.forest.find? 1 = some x ∧ (w.forest.lineage x.core).map Tree.id = [0] ∧
      w.addChild x (.directive "D" []) (some 0) = .ok (new, w₁) ∧
      w.Touches w₁ x (x.row.mapChildren fun ids => ids.insertIdx 0 w.next) (some new.row) ∧
      w.deleteChild x 2 = .ok w₂ ∧
      w.Touches w₂ x (x.row.mapChildren fun ids => ids.erase 2) none ∧
      w.setParameters x ["p"] = .ok w₃ ∧
      w.Touches w₃ x (x.row.mapStatement ({ · with parameters := ["p"] })) none := by
  have hfacts : ((Fragment.read ⟨⟨"site.conf"⟩,
        "<A>\nB 1\n</A>\nC 2\n"⟩).toOption.any fun document =>
      let w := empty.run [
        .construct ⟨none, none, false, some (.parsed document), none⟩ (.block "" []) true,
        .edit 0 (.delete 0 1)]
      (w.forest.find? 1).any fun x => (w.addChild x (.directive "D" []) (some 0)).toOption.any
        fun _ => (w.deleteChild x 2).toOption.any fun _ =>
          (w.setParameters x ["p"]).toOption.any fun _ =>
            x.isBlock && (w.forest.lineage x.core).map Tree.id == [0]) = true := by
    decide +kernel
  obtain ⟨document, hread, hfacts⟩ := (Option.any_eq_true ..).1 hfacts
  simp only at hfacts
  generalize hw : empty.run _ = w at hfacts
  obtain ⟨x, hx, hfacts⟩ := (Option.any_eq_true ..).1 hfacts
  obtain ⟨⟨new, w₁⟩, hadd, hfacts⟩ := (Option.any_eq_true ..).1 hfacts
  obtain ⟨w₂, hdelete, hfacts⟩ := (Option.any_eq_true ..).1 hfacts
  obtain ⟨w₃, hset, hfacts⟩ := (Option.any_eq_true ..).1 hfacts
  obtain ⟨hblock, hlineage⟩ := Bool.and_eq_true_iff.1 hfacts
  have htouches := touches_run hw (Forest.mem_nodes_of_find? hx).1
  exact ⟨document, w, x, new, w₁, w₂, w₃, eq_ok_of_toOption hread, hw.symm, hx,
    beq_iff_eq.1 hlineage, eq_ok_of_toOption hadd,
    (htouches.1 hblock _ _ _ _ (eq_ok_of_toOption hadd)).2.2.2, eq_ok_of_toOption hdelete,
    (htouches.2.1 _ _ (eq_ok_of_toOption hdelete)).2, eq_ok_of_toOption hset,
    htouches.2.2 _ _ (eq_ok_of_toOption hset)⟩

end Workspace

end HttpdConf
