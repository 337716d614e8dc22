import HttpdConf.Proofs.Rendering
import HttpdConf.Proofs.Statements
import HttpdConf.Proofs.WriteReach

/-!
# What the text of a file depends on

Two runs of operations that set some nodes to different values are compared. What the operations do
goes by the numbers, links and flags of nodes, so the runs lead to the same forests up to the
parameters of these nodes. A file is rendered from its topmost nodes with all that is inside them.
So its text is the same if none of the nodes stands inside a node of the file, and only then is it
made from nodes of the file alone.

## Main definitions

* `Tree.blank`: a tree without the parameters of some nodes
* `Writer.IsBlind`: the answers of a writer do not depend on nodes
* `Operation.Alike`: the same operation, up to the values that some nodes are set to
* `Workspace.handed`: the files that are handed over when a node is written, with their texts

## Main results

* `Workspace.blank_perform`: an operation does the same to workspaces that are the same up to the
  parameters of some nodes
* `Workspace.handed_run`: the text of a file does not depend on nodes that are not inside its own
-/

namespace HttpdConf

variable {σ : Type} {ids : List NodeId} {w w' : Workspace} {t u b : Tree} {f f' : Forest}

/-! ## Trees without some parameters -/

/-- What a statement says without what it remembers, and for some nodes without parameters. -/
def Statement.blank (ids : List NodeId) (core : Core) (s : Statement) : Statement :=
  ⟨s.name, if ids.contains core.id then [] else s.parameters, none⟩

/-- A tree without the parameters of some nodes, and without what its nodes remember of being
listed. -/
def Tree.blank (ids : List NodeId) (t : Tree) : Tree := t.mapStatements (Statement.blank ids)

/-- The workspace without the parameters of some nodes. -/
def Workspace.blank (ids : List NodeId) (w : Workspace) : Workspace :=
  w.mapStatements (Statement.blank ids)

theorem Statement.ignoresFlags_blank : IgnoresFlags (Statement.blank ids) := by
  intro core core' h
  have hid : core.clean.id = core'.clean.id := by rw [h]
  funext s
  exact congrArg (fun id => (⟨s.name, if ids.contains id then [] else s.parameters, none⟩ :
    Statement)) hid

@[simp]
theorem Tree.blank_core : (t.blank ids).core = t.core := Tree.mapStatements_core

@[simp]
theorem Tree.blank_id : (t.blank ids).id = t.id := Tree.mapStatements_id

@[simp]
theorem Tree.blank_isBlock : (t.blank ids).isBlock = t.isBlock := Tree.mapStatements_isBlock

@[simp]
theorem Tree.blank_name : (t.blank ids).name = t.name :=
  Tree.mapStatements_name fun _ _ => rfl

theorem Tree.blank_blank : (t.blank ids).blank ids = t.blank ids := by
  rw [Tree.blank, Tree.blank, Tree.mapStatements_mapStatements]
  congr 1
  funext core s
  unfold Statement.blank
  split <;> rfl

/-- What nodes remember is gone anyway. -/
theorem Tree.blank_forget : t.forget.blank ids = t.blank ids := by
  rw [Tree.blank, Tree.forget, Tree.mapStatements_mapStatements]
  rfl

/-- A tree without any of the nodes keeps all parameters. -/
theorem Tree.blank_of_apart (h : ∀ u ∈ t.nodes, u.id ∉ ids) : t.blank ids = t.forget := by
  refine Tree.mapStatements_congr t fun u hu s _ => ?_
  have hid : ids.contains u.core.id = false := by simpa [Tree.id] using h u hu
  rw [Statement.blank, hid, if_neg (by simp)]

theorem toOption_map {ε α β : Type _} (f : α → β) (x : Except ε α) :
    (x.map f).toOption = x.toOption.map f := by
  cases x <;> rfl

namespace Workspace

@[simp]
theorem blank_forest : (w.blank ids).forest = w.forest.map (Tree.blank ids) := rfl

@[simp]
theorem blank_next : (w.blank ids).next = w.next := rfl

theorem blank_blank : (w.blank ids).blank ids = w.blank ids := by
  have hblank : Tree.blank ids ∘ Tree.blank ids = Tree.blank ids :=
    funext fun t => Tree.blank_blank
  change Workspace.mk ((w.forest.map (Tree.blank ids)).map (Tree.blank ids)) w.next w.journal =
    Workspace.mk (w.forest.map (Tree.blank ids)) w.next w.journal
  rw [List.map_map, hblank]

theorem blank_list (blocks : List NodeId) : (w.list blocks).blank ids = w.blank ids := by
  have hblank : ∀ f : Forest,
      f.map (Tree.blank ids) = (f.map Tree.forget).map (Tree.blank ids) := by
    intro f
    rw [List.map_map]
    exact List.map_congr_left fun t _ => Tree.blank_forget.symm
  change Workspace.mk ((w.forest.list blocks).map (Tree.blank ids)) w.next w.journal =
    Workspace.mk (w.forest.map (Tree.blank ids)) w.next w.journal
  rw [hblank, Forest.forget_list, ← hblank]

theorem map_blank_forest :
    (w.forest.map (Tree.blank ids)).map (Tree.blank ids) = w.forest.map (Tree.blank ids) :=
  congrArg Workspace.forest blank_blank

theorem find?_blank (id : NodeId) :
    (w.blank ids).forest.find? id = (w.forest.find? id).map (Tree.blank ids) :=
  Forest.find?_map w.forest id

theorem node?_blank (root id : NodeId) :
    (w.blank ids).node? root id = (w.node? root id).map (Tree.blank ids) := by
  rw [Workspace.node?, find?_blank, Workspace.node?]
  cases w.forest.find? root with
  | none => rfl
  | some r =>
    have hid : (fun u : Tree => u.id == id) ∘ Tree.blank ids = fun u => u.id == id :=
      funext fun u => by simp
    rw [Option.map_some, Option.bind_some, Option.bind_some, Tree.blank, Tree.nodes_mapStatements]
    change List.find? _ (r.nodes.map (Tree.blank ids)) = _
    rw [List.find?_map, hid]

/-! ## Operations -/

/-- A node is made alike, and so are those inside it. -/
theorem blank_construct (blueprint : Blueprint) (content : NodeContent) (standing : Bool) :
    ((w.blank ids).construct blueprint content standing).map (fun made => made.2.blank ids) =
      (w.construct blueprint content standing).map fun made => made.2.blank ids := by
  have hkin : (w.blank ids).kinship blueprint = w.kinship blueprint := kinship_mapStatements _
  rw [construct_eq, construct_eq, hkin, blank_next]
  cases blueprint.make (w.kinship blueprint) w.next content standing with
  | error e => rfl
  | ok made =>
    have hadopt : ∀ f : Forest, (f.adopt blueprint.dirty made.1).map (Tree.blank ids) =
        Forest.adopt (f.map (Tree.blank ids)) blueprint.dirty (made.1.blank ids) := fun f =>
      Forest.adopt_map Statement.ignoresFlags_blank f _ _
    have hforest : ((w.blank ids).forest.adopt blueprint.dirty made.1).map (Tree.blank ids) =
        (w.forest.adopt blueprint.dirty made.1).map (Tree.blank ids) := by
      rw [hadopt, hadopt, blank_forest, map_blank_forest]
    exact congrArg (fun f => Except.ok (Workspace.mk f made.2 w.journal)) hforest

theorem blank_addChild (b : Tree) (content : NodeContent) (position : Option Nat) :
    ((w.blank ids).addChild (b.blank ids) content position).map (fun made => made.2.blank ids) =
      (w.addChild b content position).map fun made => made.2.blank ids := by
  have hplace : (b.blank ids).placeFor content position = b.placeFor content position :=
    Tree.placeFor_mapStatements b content position
  have hchild : (w.blank ids).childCore (b.blank ids) = w.childCore b := by
    simp [Workspace.childCore]
  rw [addChild_eq, addChild_eq, hplace, hchild]
  cases b.placeFor content position with
  | error e => rfl
  | ok index =>
    have hgraft : ∀ (f : Forest) (b t : Tree), (f.graft b index t).map (Tree.blank ids) =
        Forest.graft (f.map (Tree.blank ids)) (b.blank ids) index (t.blank ids) := fun f b t =>
      Forest.graft_map Statement.ignoresFlags_blank f b index t
    -- the new nodes remember different things, which makes no difference
    have hnew : ∀ standing standing' : Bool,
        (content.tree (w.childCore b) standing []).blank ids =
          (content.tree (w.childCore b) standing' []).blank ids := by
      intro standing standing'
      cases content <;> rfl
    have hforest : ∀ standing standing' : Bool,
        ((w.blank ids).forest.graft (b.blank ids) index
          (content.tree (w.childCore b) standing [])).map (Tree.blank ids) =
        (w.forest.graft b index (content.tree (w.childCore b) standing' [])).map
          (Tree.blank ids) := by
      intro standing standing'
      rw [hgraft, hgraft, blank_forest, map_blank_forest, Tree.blank_blank, hnew]
    exact congrArg (fun f => Except.ok (Workspace.mk f (w.next + 1) w.journal)) (hforest _ _)

theorem blank_deleteChild (b : Tree) (child : NodeId) :
    ((w.blank ids).deleteChild (b.blank ids) child).map (Workspace.blank ids) =
      (w.deleteChild b child).map (Workspace.blank ids) := by
  have hdelete : (w.blank ids).deleteChild (b.blank ids) child =
      (w.deleteChild b child).map (Workspace.blank ids) :=
    deleteChild_mapStatements Statement.ignoresFlags_blank b child
  rw [hdelete]
  cases w.deleteChild b child with
  | error e => rfl
  | ok w' => exact congrArg Except.ok blank_blank

/-- Whatever a node is set to, no other node notices it. -/
theorem blank_setParameters (t : Tree) {parameters parameters' : List String}
    (h : parameters = parameters' ∨ t.id ∈ ids) :
    ((w.blank ids).setParameters (t.blank ids) parameters).map (Workspace.blank ids) =
      (w.setParameters t parameters').map (Workspace.blank ids) := by
  rw [Workspace.setParameters, Workspace.setParameters, Tree.blank_name]
  split
  · rfl
  · simp only [Tree.blank_id, Tree.blank_core]
    have hset : ∀ (parameters : List String) (f : Forest),
        (Forest.markModified (f.mapStatements fun core s =>
          if core.id == t.id then { s with parameters } else s) t.core).map (Tree.blank ids) =
        Forest.markModified (f.map (Tree.mapStatements fun core s => Statement.blank ids core
          (if core.id == t.id then { s with parameters } else s))) t.core := by
      intro parameters f
      rw [Forest.mapStatements_eq_map]
      exact (Forest.markModified_map Statement.ignoresFlags_blank _ _).trans
        (congrArg (Forest.markModified · _) (Forest.map_map_mapStatements f))
    have hother : ∀ f : Forest, (f.map (Tree.blank ids)).map (Tree.mapStatements fun core s =>
        Statement.blank ids core (if core.id == t.id then { s with parameters } else s)) =
        f.map (Tree.mapStatements fun core s => Statement.blank ids core
          (if core.id == t.id then { s with parameters := parameters' } else s)) := by
      intro f
      refine (Forest.map_map_mapStatements f).trans ?_
      congr 2
      funext core s
      unfold Statement.blank
      by_cases hcore : core.id = t.id
      · rcases h with rfl | hid <;> simp_all
      · by_cases hid : core.id ∈ ids <;> simp [hcore, hid]
    refine congrArg (fun f => Except.ok (Workspace.mk f w.next w.journal))
      ((hset parameters (w.blank ids).forest).trans ?_)
    rw [blank_forest, hother, ← hset]
    rfl

/-- The same is left of an edit that sets one of the nodes to another value. -/
theorem blank_setNode {node : NodeId} (root : NodeId) {parameters parameters' : List String}
    (h : parameters = parameters' ∨ node ∈ ids) :
    ((w.blank ids).edit root (.setParameters node parameters)).map (Workspace.blank ids) =
      (w.edit root (.setParameters node parameters')).map (Workspace.blank ids) := by
  rw [Workspace.edit, node?_blank, Workspace.edit]
  cases hnode : w.node? root node with
  | none => rfl
  | some t =>
    obtain ⟨r, -, hfind⟩ := Option.bind_eq_some_iff.1 hnode
    obtain ⟨-, rfl⟩ := Tree.mem_of_find?_id hfind
    simp only [Option.map_some, ← toOption_map, blank_setParameters t h]

theorem blank_edit (root : NodeId) (e : Edit) :
    ((w.blank ids).edit root e).map (Workspace.blank ids) =
      (w.edit root e).map (Workspace.blank ids) := by
  cases e with
  | add block content position =>
    rw [Workspace.edit, node?_blank, Workspace.edit]
    cases w.node? root block with
    | none => rfl
    | some b =>
      simp only [Option.map_some, Tree.blank_isBlock]
      split
      · rw [Option.map_map, Option.map_map, ← toOption_map, ← toOption_map]
        exact congrArg Except.toOption (blank_addChild b content position)
      · rfl
  | delete block child =>
    rw [Workspace.edit, node?_blank, Workspace.edit]
    cases w.node? root block with
    | none => rfl
    | some b => simp only [Option.map_some, ← toOption_map, blank_deleteChild]
  | setParameters node parameters => exact blank_setNode root (.inl rfl)
  | look blocks =>
    rw [Workspace.edit, Workspace.edit, Option.map_some, Option.map_some, blank_list, blank_list,
      blank_blank]

theorem blank_save (t : Tree) (message : String) :
    ((w.blank ids).save (t.blank ids) message).2.blank ids = (w.save t message).2.blank ids := by
  have hsave : (w.blank ids).save (t.blank ids) message =
      ((w.save t message).1, (w.save t message).2.blank ids) := save_mapStatements t message
  rw [hsave, blank_blank]

theorem blank_markClean (t : Tree) :
    ((w.blank ids).markClean (t.blank ids)).blank ids = (w.markClean t).blank ids := by
  have hclean : (w.blank ids).markClean (t.blank ids) = (w.markClean t).blank ids :=
    markClean_mapStatements Statement.ignoresFlags_blank t
  rw [hclean, blank_blank]

theorem blank_sweep (held : List NodeId) :
    Workspace.blank ids { w.blank ids with forest := (w.blank ids).forest.sweep held } =
      Workspace.blank ids { w with forest := w.forest.sweep held } :=
  (congrArg (Workspace.blank ids) (sweep_mapStatements held)).trans blank_blank

end Workspace

/-! ## Writers -/

/-- The answers of a writer to calls go by a view of its state that nothing in the nodes reaches. -/
def Writer.IsBlind (writer : Writer (StateM σ)) : Prop :=
  ∃ (τ : Type) (view : σ → τ) (answer : Path → τ → Except Error Unit × τ), ∀ f path nodes s,
    Prod.map id view (writer.call f path nodes s) = answer path (view s)

namespace Workspace

/-- A blind writer takes the files of one tree just if it takes those of another one. -/
theorem writeFiles_of_blind {writer : Writer (StateM σ)} {τ : Type} {view : σ → τ}
    {answer : Path → τ → Except Error Unit × τ}
    (hblind : ∀ f path nodes s,
      Prod.map id view (writer.call f path nodes s) = answer path (view s))
    (f f' : Forest) (root root' : Tree) (files : List Path) {s s' : σ} (hs : view s = view s') :
    (Id.run ((writeFiles writer f root files).run s)).1.1 =
      (Id.run ((writeFiles writer f' root' files).run s')).1.1 := by
  induction files generalizing s s' with
  | nil => rfl
  | cons path files ih =>
    have hcall : Prod.map id view (writer.call f path (root.fileRoots path) s) =
        Prod.map id view (writer.call f' path (root'.fileRoots path) s') := by
      rw [hblind, hblind, hs]
    generalize hout : Id.run ((writeFiles writer f root (path :: files)).run s) = out
    generalize hout' : Id.run ((writeFiles writer f' root' (path :: files)).run s') = out'
    obtain ⟨⟨result, listed⟩, last⟩ := out
    obtain ⟨⟨result', listed'⟩, last'⟩ := out'
    rcases writeFiles_cons_cases hout with ⟨e, rfl, h⟩ | ⟨s₁, more, h, hmore⟩ <;>
      rcases writeFiles_cons_cases hout' with ⟨e', rfl, h'⟩ | ⟨s₁', more', h', hmore'⟩ <;>
      rw [h, h'] at hcall <;> obtain ⟨hanswer, hview⟩ := Prod.mk.inj hcall
    · exact hanswer
    · exact absurd hanswer (by simp)
    · exact absurd hanswer (by simp)
    · have hrest := ih hview
      rw [hmore, hmore'] at hrest
      exact hrest

theorem blank_settle (root : NodeId) (files : List Path) (h : w.blank ids = w'.blank ids) :
    Workspace.blank ids { w with forest := w.forest.update root (Tree.settle files) } =
      Workspace.blank ids { w' with forest := w'.forest.update root (Tree.settle files) } := by
  have hsettle := fun w : Workspace => settle_mapStatements (g := Statement.blank ids) (w := w)
    Statement.ignoresFlags_blank root files
  exact (hsettle w).symm.trans ((congrArg (fun w : Workspace =>
    (⟨Forest.update root (Tree.settle files) w.forest, w.next, w.journal⟩ : Workspace)) h).trans
      (hsettle w'))

/-- What is left of a write does not depend on texts if the answers of the writer do not depend on
nodes. -/
theorem blank_writeUnsaved {writer : Writer (StateM σ)} (hwriter : writer.IsBlind) (t : Tree)
    (s : σ) :
    (Id.run (((w.blank ids).writeUnsaved writer (t.blank ids)).run s)).1.2.blank ids =
      (Id.run ((w.writeUnsaved writer t).run s)).1.2.blank ids := by
  obtain ⟨τ, view, answer, hblind⟩ := hwriter
  have hfiles : (t.blank ids).unsavedFiles = t.unsavedFiles := Tree.unsavedFiles_mapStatements
  have hroot : (w.blank ids).forest.root (t.blank ids) = (w.forest.root t).blank ids :=
    Forest.root_map w.forest t
  have hlists : ∀ blocks blocks' : List NodeId,
      ((w.blank ids).list blocks).blank ids = (w.list blocks').blank ids := by
    intro blocks blocks'
    rw [blank_list, blank_list, blank_blank]
  rw [writeUnsaved, writeUnsaved, hfiles, hroot]
  simp only
  split
  · exact hlists _ _
  · rw [Tree.blank_core]
    split
    · exact hlists _ _
    · have hanswer := writeFiles_of_blind hblind (w.blank ids).forest w.forest
        ((w.forest.root t).blank ids) (w.forest.root t) t.unsavedFiles (s := s) rfl
      simp only [StateT.run_bind, Id.run_bind]
      generalize Id.run ((writeFiles writer (w.blank ids).forest ((w.forest.root t).blank ids)
        t.unsavedFiles).run s) = out at hanswer ⊢
      generalize Id.run ((writeFiles writer w.forest (w.forest.root t)
        t.unsavedFiles).run s) = out' at hanswer ⊢
      obtain ⟨⟨result, listed⟩, last⟩ := out
      obtain ⟨⟨result', listed'⟩, last'⟩ := out'
      obtain rfl : result = result' := hanswer
      cases result with
      | error e => exact hlists _ _
      | ok _ =>
        simp only [Tree.blank_id]
        exact blank_settle _ _ (hlists _ _)

end Workspace

/-! ## Runs -/

/-- The texts that an operation hands to a writer make no difference to what it answers. -/
def Operation.IsBlind : Operation → Prop
  | .write _ writer _ => writer.IsBlind
  | _ => True

/-- Operations that are the same, up to the values that some nodes are set to. -/
inductive Operation.Alike (ids : List NodeId) : Operation → Operation → Prop
  | same {op : Operation} (hop : op.IsBlind) : Alike ids op op
  | setParameters {root node : NodeId} (parameters parameters' : List String)
      (hnode : node ∈ ids) :
      Alike ids (.edit root (.setParameters node parameters))
        (.edit root (.setParameters node parameters'))

namespace Workspace

theorem getD_map_blank {x y : Option Workspace} (hw : w.blank ids = w'.blank ids)
    (h : x.map (Workspace.blank ids) = y.map (Workspace.blank ids)) :
    (x.getD w).blank ids = (y.getD w').blank ids := by
  cases x <;> cases y <;> simp_all

/-- An operation does not notice what some nodes are set to. -/
theorem blank_perform (op : Operation) (hop : op.IsBlind) :
    ((w.blank ids).perform op).blank ids = (w.perform op).blank ids := by
  cases op with
  | construct blueprint content standing =>
    have hancestor : ∀ id, ((w.blank ids).forest.find? id).any Tree.isBlock =
        (w.forest.find? id).any Tree.isBlock := by
      intro id
      rw [find?_blank]
      cases w.forest.find? id <;> simp
    simp only [perform, hancestor]
    split
    · refine getD_map_blank blank_blank ?_
      rw [Option.map_map, Option.map_map, ← toOption_map, ← toOption_map]
      exact congrArg Except.toOption (blank_construct blueprint content standing)
    · exact blank_blank
  | edit root e => exact getD_map_blank blank_blank (blank_edit root e)
  | save node message =>
    rw [perform, find?_blank, perform]
    cases w.forest.find? node with
    | none => exact blank_blank
    | some t => exact blank_save t message
  | write node writer state =>
    rw [perform, find?_blank, perform]
    cases w.forest.find? node with
    | none => exact blank_blank
    | some t => exact blank_writeUnsaved hop t state
  | markClean node =>
    rw [perform, find?_blank, perform]
    cases w.forest.find? node with
    | none => exact blank_blank
    | some t => exact blank_markClean t
  | sweep held => exact blank_sweep held

/-- Operations that are alike do the same to workspaces that are alike. -/
theorem blank_perform_congr {op op' : Operation} (hop : op.Alike ids op')
    (h : w.blank ids = w'.blank ids) :
    (w.perform op).blank ids = (w'.perform op').blank ids := by
  cases hop with
  | same hop => rw [← blank_perform _ hop, h, blank_perform _ hop]
  | @setParameters root node parameters parameters' hnode =>
    calc (w.perform (.edit root (.setParameters node parameters))).blank ids
        = ((w.blank ids).perform (.edit root (.setParameters node parameters))).blank ids :=
          (blank_perform (.edit root (.setParameters node parameters)) trivial).symm
      _ = ((w'.blank ids).perform (.edit root (.setParameters node parameters))).blank ids := by
          rw [h]
      _ = (w'.perform (.edit root (.setParameters node parameters'))).blank ids :=
          getD_map_blank blank_blank (blank_setNode root (.inr hnode))

/-- Runs that are alike lead to workspaces that are alike. -/
theorem blank_run {operations operations' : List Operation}
    (hrun : List.Forall₂ (Operation.Alike ids) operations operations')
    (h : w.blank ids = w'.blank ids) :
    (w.run operations).blank ids = (w'.run operations').blank ids := by
  induction hrun generalizing w w' with
  | nil => exact h
  | cons hop _ ih =>
    rw [Workspace.run, Workspace.run, List.foldl_cons, List.foldl_cons]
    exact ih (blank_perform_congr hop h)

end Workspace

/-! ## Texts -/

theorem Forest.root_blank (f : Forest) (t : Tree) :
    Forest.root (f.map (Tree.blank ids)) (t.blank ids) = (f.root t).blank ids :=
  Forest.root_map f t

theorem Tree.fileRoots_blank (path : Path) (t : Tree) :
    (t.blank ids).fileRoots path = (t.fileRoots path).map (Tree.blank ids) :=
  Tree.fileRoots_mapStatements t

theorem Tree.unsavedFiles_blank : (t.blank ids).unsavedFiles = t.unsavedFiles :=
  Tree.unsavedFiles_mapStatements

theorem Forest.ids_blank (ts : Forest) :
    (Forest.nodes (ts.map (Tree.blank ids))).map Tree.id = (Forest.nodes ts).map Tree.id := by
  have hnodes : Forest.nodes (ts.map (Tree.blank ids)) = (Forest.nodes ts).map (Tree.blank ids) :=
    Forest.nodes_map ts
  rw [hnodes, List.map_map]
  exact List.map_congr_left fun u _ => Tree.blank_id

/-- The text of some nodes depends on nothing but them and how deep they stand. -/
theorem Forest.renderAll_blank (f : Forest) {ts : Forest}
    (hts : ∀ u ∈ Forest.nodes ts, u.id ∉ ids) (before : Ending) :
    Forest.renderAll (f.map (Tree.blank ids)) before (ts.map (Tree.blank ids)) =
      f.renderAll before ts := by
  induction ts generalizing before with
  | nil => rfl
  | cons t ts ih =>
    rw [Forest.nodes_cons] at hts
    have hdepth : Forest.depth (f.map (Tree.blank ids)) (t.blank ids) = f.depth t :=
      Forest.depth_map f t
    have hrest := ih fun u hu => hts u (List.mem_append_right _ hu)
    rw [List.map_cons, Forest.renderAll, Forest.renderAll, hdepth,
      Tree.blank_of_apart fun u hu => hts u (List.mem_append_left _ hu)]
    simp only [Tree.renderAfter_forget, hrest]

/-- Nodes that are the same without some parameters have the same text if none of the parameters is
theirs. -/
theorem Forest.render_congr {ts ts' : Forest}
    (hf : f.map (Tree.blank ids) = f'.map (Tree.blank ids))
    (hts : ts.map (Tree.blank ids) = ts'.map (Tree.blank ids))
    (hapart : ∀ u ∈ Forest.nodes ts, u.id ∉ ids) : f.render ts = f'.render ts' := by
  have hids : (Forest.nodes ts').map Tree.id = (Forest.nodes ts).map Tree.id := by
    rw [← Forest.ids_blank, ← hts, Forest.ids_blank]
  have hapart' : ∀ u ∈ Forest.nodes ts', u.id ∉ ids := by
    intro u hu
    have hid : u.id ∈ (Forest.nodes ts').map Tree.id := List.mem_map_of_mem hu
    rw [hids] at hid
    obtain ⟨v, hv, hvid⟩ := List.mem_map.1 hid
    exact hvid ▸ hapart v hv
  rw [Forest.render, Forest.render, ← Forest.renderAll_blank f hapart,
    ← Forest.renderAll_blank f' hapart', hf, hts]

mutual
theorem Tree.path_of_mem_fileRoots {path : Path} (t : Tree) (hu : u ∈ t.fileRoots path) :
    (u.core.path == path) = true := by
  cases htop : t.core.path == path with
  | true =>
    rw [Tree.fileRoots_of_path htop] at hu
    rwa [List.mem_singleton.1 hu]
  | false =>
    rw [Tree.fileRoots_of_not_path htop] at hu
    match t with
    | .comment core text => exact absurd hu List.not_mem_nil
    | .directive core statement => exact absurd hu List.not_mem_nil
    | .block core statement children => exact Forest.path_of_mem_fileRoots children hu

theorem Forest.path_of_mem_fileRoots {path : Path} (f : Forest)
    (hu : u ∈ Forest.fileRoots path f) : (u.core.path == path) = true := by
  match f with
  | [] => simp [Forest.fileRoots] at hu
  | t :: f =>
    rw [Forest.fileRoots, List.mem_append] at hu
    rcases hu with hu | hu
    · exact Tree.path_of_mem_fileRoots t hu
    · exact Forest.path_of_mem_fileRoots f hu
end

/-- Two spellings of a path are equal to the same paths. -/
theorem Path.beq_trans {p q x : Path} (hpq : (p == q) = true) (hqx : (q == x) = true) :
    (p == x) = true := by
  change (p.components == q.components) = true at hpq
  change (q.components == x.components) = true at hqx
  change (p.components == x.components) = true
  rw [beq_iff_eq] at *
  exact hpq.trans hqx

/-- A writer that takes every file and keeps a list of what it was handed. -/
def Writer.ledger : Writer (StateM (List (Path × String))) :=
  .ofText fun path text => do
    modify fun files => files ++ [(path, text)]
    return .ok ()

namespace Workspace

/-- What a writer is handed when the unsaved files of a node are written: the files one after the
other, each with its text. -/
def handed (w : Workspace) (node : NodeId) : List (Path × String) :=
  ((w.forest.find? node).map fun t =>
    (Id.run ((w.writeUnsaved Writer.ledger t).run [])).2).getD []

theorem eq_of_takes_ledger {f : Forest} {nodes : Path → List Tree} {files : List Path}
    {s s' : List (Path × String)} (h : Writer.ledger.Takes f nodes files s s') :
    s' = s ++ files.map fun path => (path, f.render (nodes path)) := by
  induction h with
  | nil => simp
  | cons hcall _ ih =>
    rw [Writer.ledger, Writer.call_ofText] at hcall
    obtain ⟨-, rfl⟩ := Prod.mk.inj hcall
    rw [ih, List.map_cons, List.append_assoc]
    rfl

theorem handed_of_none (h : w.forest.find? node = none) : w.handed node = [] := by
  rw [handed, h, Option.map_none, Option.getD_none]

/-- Every unsaved file is handed over, if the root of the tree is still alive. -/
theorem handed_eq (ht : w.forest.find? node = some t) :
    w.handed node = if (w.forest.root t).core.origin.isDocument then
      t.unsavedFiles.map fun path => (path, w.fileText t path) else [] := by
  rw [handed, ht, Option.map_some, Option.getD_some]
  generalize hout : Id.run ((w.writeUnsaved Writer.ledger t).run []) = out
  obtain ⟨⟨result, w'⟩, s'⟩ := out
  cases writes_writeUnsaved hout with
  | idle blocks hfiles => simp [hfiles]
  | rootGone blocks _ hroot => simp [hroot]
  | failed blocks _ hfails =>
    obtain ⟨before, path, after, s, -, -, hcall⟩ := hfails
    rw [Writer.ledger, Writer.call_ofText] at hcall
    exact absurd (Prod.mk.inj hcall).1 (by simp)
  | written blocks _ hroot htakes =>
    rw [if_pos hroot]
    exact eq_of_takes_ledger htakes

/-- The text of a file depends on nothing outside the nodes of the file. -/
theorem fileText_congr {t' : Tree} {path : Path} (h : w.blank ids = w'.blank ids)
    (ht : t.blank ids = t'.blank ids)
    (hapart : ∀ r ∈ (w.forest.root t).nodes, (r.core.path == path) = true →
      ∀ u ∈ r.nodes, u.id ∉ ids) :
    w.fileText t path = w'.fileText t' path := by
  have hforest : w.forest.map (Tree.blank ids) = w'.forest.map (Tree.blank ids) :=
    congrArg Workspace.forest h
  refine Forest.render_congr hforest ?_ fun u hu => ?_
  · rw [fileNodes, fileNodes, ← Tree.fileRoots_blank, ← Tree.fileRoots_blank, ← Forest.root_blank,
      ← Forest.root_blank, hforest, ht]
  · obtain ⟨r, hr, hur⟩ := Forest.mem_nodes.1 hu
    exact hapart r ((Tree.fileRoots_sublist path _).subset hr) (Tree.path_of_mem_fileRoots _ hr) u
      hur

/-- In workspaces that are alike the same files are handed over. -/
theorem handed_congr {path : Path} (h : w.blank ids = w'.blank ids) (node : NodeId)
    (hapart : ∀ t, w.forest.find? node = some t →
      ∀ r ∈ (w.forest.root t).nodes, (r.core.path == path) = true → ∀ u ∈ r.nodes, u.id ∉ ids) :
    (w'.handed node).filter (·.1 == path) = (w.handed node).filter (·.1 == path) := by
  have hfind : (w.forest.find? node).map (Tree.blank ids) =
      (w'.forest.find? node).map (Tree.blank ids) := by
    rw [← find?_blank, ← find?_blank, h]
  cases ht : w.forest.find? node with
  | none =>
    rw [ht] at hfind
    rw [handed_of_none ht, handed_of_none (Option.map_eq_none_iff.1 hfind.symm)]
  | some t =>
    rw [ht, Option.map_some] at hfind
    obtain ⟨t', ht', hblank⟩ := Option.map_eq_some_iff.1 hfind.symm
    have hfiles : t'.unsavedFiles = t.unsavedFiles := by
      exact Tree.unsavedFiles_blank.symm.trans
        ((congrArg Tree.unsavedFiles hblank).trans Tree.unsavedFiles_blank)
    have hroot : (w'.forest.root t').core = (w.forest.root t).core := by
      have hcore : ∀ u : Tree, (u.blank ids).core = u.core := fun _ => Tree.blank_core
      rw [← hcore, ← Forest.root_blank, hblank, ← blank_forest, ← h, blank_forest,
        Forest.root_blank, hcore]
    rw [handed_eq ht', handed_eq ht, hfiles, hroot]
    split
    · rw [List.filter_map, List.filter_map]
      refine List.map_congr_left fun p hp => ?_
      have hpath : (p == path) = true := (List.mem_filter.1 hp).2
      exact congrArg (Prod.mk p) (fileText_congr h hblank.symm fun r hr hrp =>
        hapart t ht r hr (Path.beq_trans hrp hpath)).symm
    · rfl

/-- Two runs that start alike perform the same operations, up to the values that some nodes are set
to. If none of these nodes stands inside a node of a file in the end, then the file is handed over
in both cases or in neither, with the same text. -/
theorem handed_run {operations operations' : List Operation}
    (hrun : List.Forall₂ (Operation.Alike ids) operations operations') (w : Workspace)
    (node : NodeId) (path : Path)
    (hapart : ∀ t, (w.run operations).forest.find? node = some t →
      ∀ r ∈ ((w.run operations).forest.root t).nodes, (r.core.path == path) = true →
        ∀ u ∈ r.nodes, u.id ∉ ids) :
    ((w.run operations').handed node).filter (·.1 == path) =
      ((w.run operations).handed node).filter (·.1 == path) :=
  handed_congr (blank_run hrun rfl) node hapart

/-- A file that is included in a block of another one is handed over with the same text, whatever
the block is set to. -/
theorem handed_run_included :
    ∃ document operations operations',
      DocumentSpec.assemble (.file ⟨⟨"site.conf"⟩, "<A>\n</A>\n"⟩
        [(⟨[0], 0, false⟩, .file ⟨⟨"b.conf"⟩, "B 1\n"⟩ [])]) = .ok document ∧
      operations = [
        .construct ⟨none, none, false, some (.parsed document), none⟩ (.block "" []) true,
        .edit 0 (.setParameters 2 ["2"]), .edit 0 (.setParameters 1 ["y"])] ∧
      operations' = [
        .construct ⟨none, none, false, some (.parsed document), none⟩ (.block "" []) true,
        .edit 0 (.setParameters 2 ["2"]), .edit 0 (.setParameters 1 ["z"])] ∧
      ((empty.run operations).handed 0).map (Prod.map Path.text id) =
        [("b.conf", "B 2"), ("site.conf", "<A y>\nB 2\n</A>\n")] ∧
      ((empty.run operations').handed 0).filter (·.1 == ⟨"b.conf"⟩) =
        ((empty.run operations).handed 0).filter (·.1 == ⟨"b.conf"⟩) := by
  have hfacts : ((DocumentSpec.assemble (.file ⟨⟨"site.conf"⟩, "<A>\n</A>\n"⟩
      [(⟨[0], 0, false⟩, .file ⟨⟨"b.conf"⟩, "B 1\n"⟩ [])])).toOption.any fun document =>
      let w := empty.run [
        .construct ⟨none, none, false, some (.parsed document), none⟩ (.block "" []) true,
        .edit 0 (.setParameters 2 ["2"]), .edit 0 (.setParameters 1 ["y"])]
      decide ((w.handed 0).map (Prod.map Path.text id) =
        [("b.conf", "B 2"), ("site.conf", "<A y>\nB 2\n</A>\n")]) &&
      (w.forest.find? 0).all fun t => (w.forest.root t).nodes.all fun r =>
        !(r.core.path == ⟨"b.conf"⟩) || r.nodes.all fun u => !([1].contains u.id)) = true := by
    decide +kernel
  obtain ⟨document, hread, hfacts⟩ := (Option.any_eq_true ..).1 hfacts
  obtain ⟨hhanded, hapart⟩ := Bool.and_eq_true_iff.1 hfacts
  refine ⟨document, _, _, eq_ok_of_toOption hread, rfl, rfl, of_decide_eq_true hhanded,
    handed_run (?_ : List.Forall₂ (Operation.Alike [1]) _ _) empty 0 ⟨"b.conf"⟩
      fun t ht r hr hpath u hu => ?_⟩
  · exact .cons (.same trivial) (.cons (.same trivial) (.cons (.setParameters _ _ (by simp)) .nil))
  · rw [ht, Option.all_some] at hapart
    have hnode := List.all_eq_true.1 hapart r hr
    rw [hpath, Bool.not_true, Bool.false_or] at hnode
    simpa using List.all_eq_true.1 hnode u hu

/-- A file is included in a block of another one. When the block has a change of its own, it is
handed over with what the other file says. -/
theorem handed_run_nested :
    ∃ document operations operations',
      DocumentSpec.assemble (.file ⟨⟨"site.conf"⟩, "<A>\n</A>\n"⟩
        [(⟨[0], 0, false⟩, .file ⟨⟨"b.conf"⟩, "B 1\n"⟩ [])]) = .ok document ∧
      operations = [
        .construct ⟨none, none, false, some (.parsed document), none⟩ (.block "" []) true,
        .edit 0 (.setParameters 2 ["x"]), .edit 0 (.add 1 (.comment "c") none)] ∧
      operations' = [
        .construct ⟨none, none, false, some (.parsed document), none⟩ (.block "" []) true,
        .edit 0 (.setParameters 2 ["y"]), .edit 0 (.add 1 (.comment "c") none)] ∧
      List.Forall₂ (Operation.Alike [2]) operations operations' ∧
      ((empty.run operations).forest.find? 2).map (fun u => u.core.path.text) = some "b.conf" ∧
      ((empty.run operations).handed 0).map (Prod.map Path.text id) =
        [("b.conf", "B x"), ("site.conf", "<A>\nB x\n    # c\n</A>\n")] ∧
      ((empty.run operations').handed 0).map (Prod.map Path.text id) =
        [("b.conf", "B y"), ("site.conf", "<A>\nB y\n    # c\n</A>\n")] := by
  have hfacts : ((DocumentSpec.assemble (.file ⟨⟨"site.conf"⟩, "<A>\n</A>\n"⟩
      [(⟨[0], 0, false⟩, .file ⟨⟨"b.conf"⟩, "B 1\n"⟩ [])])).toOption.any fun document =>
      let w := fun value : String => empty.run [
        .construct ⟨none, none, false, some (.parsed document), none⟩ (.block "" []) true,
        .edit 0 (.setParameters 2 [value]), .edit 0 (.add 1 (.comment "c") none)]
      decide (((w "x").forest.find? 2).map (fun u => u.core.path.text) = some "b.conf" ∧
        ((w "x").handed 0).map (Prod.map Path.text id) =
          [("b.conf", "B x"), ("site.conf", "<A>\nB x\n    # c\n</A>\n")] ∧
        ((w "y").handed 0).map (Prod.map Path.text id) =
          [("b.conf", "B y"), ("site.conf", "<A>\nB y\n    # c\n</A>\n")])) = true := by
    decide +kernel
  obtain ⟨document, hread, hfacts⟩ := (Option.any_eq_true ..).1 hfacts
  exact ⟨document, _, _, eq_ok_of_toOption hread, rfl, rfl,
    .cons (.same trivial) (.cons (.setParameters _ _ (by simp)) (.cons (.same trivial) .nil)),
    of_decide_eq_true hfacts⟩

end Workspace

end HttpdConf
