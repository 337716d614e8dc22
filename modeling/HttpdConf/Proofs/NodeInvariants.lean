import HttpdConf.Proofs.Editing

/-!
# What all nodes of a document have

A property of nodes that a change of one node keeps, for the node itself, for what is added and for
the blocks around it, holds for all nodes of a document after any run of edits.

## Main definitions

* `Tree.IsDocumentWith`: the tree of a document, all of whose nodes have a property
* `Edit.Keeps`: an edit that keeps a property of nodes

## Main results

* `Edit.Keeps.isDocumentWith`, `Edit.Keeps.isDocumentWith_run`: edits that keep a property keep it
  for all nodes
-/

namespace HttpdConf

/-- The tree is that of a document, and all nodes inside have a property. -/
def Tree.IsDocumentWith (document : Fragment) (P : Tree → Prop) (t : Tree) : Prop :=
  ∃ core children standing, t = .block core ⟨"", [], standing⟩ children ∧
    core.origin = .parsed document ∧ core.path = document.source.path ∧
      ∀ u ∈ Forest.nodes children, P u

/-- The edit keeps a property of the nodes of a document. -/
structure Edit.Keeps (e : Edit) (document : Fragment) (P : Tree → Prop) : Prop where
  /-- blocks keep it whatever becomes of their children -/
  block : ∀ {core core' : Core} {statement : Statement} {children children' : Forest},
    P (.block core statement children) → core'.origin = core.origin → core'.path = core.path →
    core'.dirty = true → P (.block core' statement children')
  touched : ∀ {u : Tree}, P u → P (u.mapCore Core.touched)
  new : ∀ {block : NodeId} {content : NodeContent} {position : Option Nat} {core : Core}
    {next : NodeId}, e = .add block content position →
    (core.path = document.source.path ∨ ∃ statement children, P (.block core statement children)) →
    P (content.tree (core.child next) true []).forget
  parameters : ∀ {node : NodeId} {parameters : List String} {u : Tree},
    e = .setParameters node parameters → P u →
    P ((u.mapStatement ({ · with parameters })).mapCore Core.touched)

/-- A new node has nothing inside. -/
theorem NodeContent.eq_of_mem_nodes_tree {content : NodeContent} {core : Core} {v : Tree}
    (hv : v ∈ (content.tree core true []).forget.nodes) :
    v = (content.tree core true []).forget := by
  cases content <;>
    simpa [NodeContent.tree, Tree.forget, Tree.mapStatements, Forest.mapStatements, Tree.nodes]
      using hv

namespace Edit.Keeps

variable {e : Edit} {document : Fragment} {P : Tree → Prop} {t : Tree} {id : NodeId}

/-- Other children leave a node with the property, if they have it. -/
theorem withChildren (h : e.Keeps document P) {k : Forest → Forest}
    (hk : ∀ v ∈ Forest.nodes (k t.children), P v) (ht : P t) :
    ∀ v ∈ ((t.withChildren k).mapCore Core.touched).nodes, P v := by
  intro v hv
  cases t with
  | block core statement children =>
    rw [Tree.withChildren, Tree.mapCore, Tree.nodes] at hv
    rcases List.mem_cons.1 hv with rfl | hv
    · exact h.block ht rfl rfl rfl
    · exact hk v hv
  | comment core text =>
    obtain rfl : v = .comment core.touched text := by
      simpa [Tree.withChildren, Tree.mapCore, Tree.nodes] using hv
    exact h.touched ht
  | directive core statement =>
    obtain rfl : v = .directive core.touched statement := by
      simpa [Tree.withChildren, Tree.mapCore, Tree.nodes] using hv
    exact h.touched ht

theorem touch (h : e.Keeps document P) {g : Tree → Tree} (ht : t.IsDocumentWith document P)
    (hg : ∀ u ∈ Forest.nodes t.children, u.id = id → (∀ v ∈ u.nodes, P v) →
      ∀ v ∈ ((g u).mapCore Core.touched).nodes, P v)
    (hroot : t.id = id → ∃ k, g t = t.withChildren k ∧ ∀ v ∈ Forest.nodes (k t.children), P v) :
    (t.touch id g).IsDocumentWith document P := by
  obtain ⟨core, children, standing, rfl, horigin, hpath, hnodes⟩ := ht
  rw [Tree.touch]
  split
  · rename_i hid
    obtain ⟨k, hk, hnodes'⟩ := hroot (by simpa [Tree.id, Tree.core] using hid)
    rw [hk]
    exact ⟨_, _, standing, rfl, horigin, hpath, hnodes'⟩
  · split
    · exact ⟨_, _, standing, rfl, horigin, hpath, Forest.forall_nodes_touch children
        (fun _ _ _ _ _ hblock => h.block hblock rfl rfl rfl) hg hnodes⟩
    · exact ⟨core, children, standing, rfl, horigin, hpath, hnodes⟩

/-- Where an edit keeps a property, all nodes of a document keep it. -/
theorem isDocumentWith (h : e.Keeps document P) {s s' : Sheet}
    (hs : s.tree.IsDocumentWith document P) (hedit : s.edit e = some s') :
    s'.tree.IsDocumentWith document P := by
  have hinside : ∀ u ∈ Forest.nodes s.tree.children, P u := by
    obtain ⟨core, children, standing, htree, -, -, hnodes⟩ := hs
    rw [htree]
    exact hnodes
  obtain ⟨blocks, rfl, rfl⟩ | ⟨block, content, position, b, rfl, hb, hblock, rfl⟩ |
    ⟨block, child, -, rfl, -, rfl⟩ | ⟨node, parameters, b, rfl, hb, hname, rfl⟩ :=
    Sheet.edit_cases hedit
  · exact hs
  · -- the block of a new node is the root or has the property itself
    have hnew : P (content.tree (b.core.child s.next) true []).forget := by
      refine h.new rfl ?_
      have hmem := List.mem_of_find?_eq_some hb
      rw [s.tree.nodes_eq] at hmem
      rcases List.mem_cons.1 hmem with rfl | hmem
      · obtain ⟨core, children, standing, htree, -, hpath, -⟩ := hs
        exact .inl (by rw [htree]; exact hpath)
      · obtain ⟨core, statement, children, rfl⟩ := Tree.exists_of_isBlock hblock
        exact .inr ⟨statement, children, hinside _ hmem⟩
    -- children with the property keep it when a node that has it is put among them
    have hinsert : ∀ {f : Forest}, (∀ v ∈ Forest.nodes f, P v) → ∀ v ∈ Forest.nodes
        (f.insertIdx (position.getD b.children.length)
          (content.tree (b.core.child s.next) true []).forget), P v := by
      intro f hf v hv
      obtain ⟨u, hu, hv⟩ := Forest.mem_nodes.1 hv
      rcases List.eq_or_mem_of_mem_insertIdx hu with rfl | hu
      · rwa [NodeContent.eq_of_mem_nodes_tree hv]
      · exact hf v (Forest.mem_nodes.2 ⟨u, hu, hv⟩)
    refine h.touch hs (fun u hu _ hall => h.withChildren ?_ (hall u u.self_mem_nodes)) fun _ =>
      ⟨_, rfl, hinsert hinside⟩
    exact hinsert fun v hv => hall v (Tree.mem_nodes_of_mem_children hv)
  · -- what is left after a deletion was there before
    have hfilter : ∀ {f : Forest}, (∀ v ∈ Forest.nodes f, P v) → ∀ v ∈ Forest.nodes
        (f.filter (·.id != child)), P v := by
      intro f hf v hv
      obtain ⟨u, hu, hv⟩ := Forest.mem_nodes.1 hv
      exact hf v (Forest.mem_nodes.2 ⟨u, (List.mem_filter.1 hu).1, hv⟩)
    refine h.touch hs (fun u hu _ hall => h.withChildren ?_ (hall u u.self_mem_nodes)) fun _ =>
      ⟨_, rfl, hfilter hinside⟩
    exact hfilter fun v hv => hall v (Tree.mem_nodes_of_mem_children hv)
  · have hroot : s.tree.name = "" := by
      obtain ⟨core, children, standing, htree, -⟩ := hs
      rw [htree]
      rfl
    refine h.touch hs (fun u _ _ hall v hv => ?_) fun hid =>
      absurd hid (Sheet.root_id_ne hroot hb hname)
    rw [Tree.nodes_eq, Tree.mapCore_children, Tree.mapStatement_children] at hv
    rcases List.mem_cons.1 hv with rfl | hv
    · exact h.parameters rfl (hall u u.self_mem_nodes)
    · exact hall v (Tree.mem_nodes_of_mem_children hv)

end Edit.Keeps

/-- Edits that keep a property keep it for all nodes of a document. -/
theorem Edit.Keeps.isDocumentWith_run {document : Fragment} {P : Tree → Prop} {edits : List Edit}
    {s s' : Sheet} (hedits : ∀ e ∈ edits, e.Keeps document P)
    (hs : s.tree.IsDocumentWith document P) (hrun : edits.foldlM Sheet.edit s = some s') :
    s'.tree.IsDocumentWith document P :=
  Sheet.kept_run (P := fun s => s.tree.IsDocumentWith document P)
    (fun e he _ _ hm hedit => (hedits e he).isDocumentWith hm hedit) hs hrun

end HttpdConf
