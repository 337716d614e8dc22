import HttpdConf.Proofs.Resemblance
import HttpdConf.Proofs.Searches
import HttpdConf.Session

/-!
# What a caller sees

Two sessions are compared that differ only in what their nodes remember. As long as these memories
fit, targets lead to the same nodes in both sessions, and answers that tell of these nodes look the
same to a caller.

An action is taken apart into its steps. A step agrees with itself when its results in both sessions
are related, and the sessions it leaves again differ only in memories that fit; then so does one
step after another.

## Main definitions

* `Reply`, `Answer.reply`: what a caller learns from an answer
* `Session.recast`: a session with other memories
* `Session.node?`: the node that a target leads to
* `Step.Agrees`: how a step ends in a session, and with other memories

## Main results

* `Step.Agrees.bind`, `Step.Agrees.list_bind`: one step after another
* `Step.agrees_resolve`: targets lead to the same nodes
* `Step.agrees_answerNode`, `Step.agrees_answerNodes`: nodes are answered and held alike
-/

namespace HttpdConf

/-! ## What a caller sees -/

/-- What can be seen of a node. -/
structure NodeView where
  core : Core
  content : NodeContent
  enabled : Bool
  active : Bool

/-- What a node says. -/
def Tree.content : Tree → NodeContent
  | .comment _ text => .comment text
  | .directive _ s => .directive s.name s.parameters
  | .block _ s _ => .block s.name s.parameters

def Tree.view (scene : Forest) (t : Tree) : NodeView :=
  ⟨t.core, t.content, scene.enabled t, t.isActive⟩

/-- What a caller learns from an answer. Of a tree, this is what can be seen of each node and how
many children it has, in document order. -/
inductive Reply where
  | node (v : NodeView)
  | nodes (vs : List NodeView)
  | tree (vs : List (NodeView × Nat))
  | other (answer : Answer)

def Answer.reply : Answer → Reply
  | .node scene t => .node (t.view scene)
  | .nodes scene ts => .nodes (ts.map (Tree.view scene))
  | .tree scene t => .tree (t.nodes.map fun u => (u.view scene, u.children.length))
  | answer => .other answer

/-- The nodes that a reply tells of are in force or not. -/
def Reply.flags : Reply → List Bool
  | .node v => [v.enabled]
  | .nodes vs => vs.map NodeView.enabled
  | .tree vs => vs.map fun v => v.1.enabled
  | .other _ => []

variable {outer : List NodeId} {μ ν e : Memories} {t t' u : Tree} {s s' : Session} {α β : Type}

/-! ## Sessions with other memories -/

namespace Session

def recast (μ : Memories) (s : Session) : Session := { s with workspace := s.workspace.recast μ }

@[simp]
theorem recast_forest : (s.recast μ).forest = s.forest.map (Tree.recast μ) := rfl

@[simp]
theorem recast_workspace : (s.recast μ).workspace = s.workspace.recast μ := rfl

@[simp]
theorem recast_handles : (s.recast μ).handles = s.handles := rfl

/-- The children of some blocks are listed. -/
def list (s : Session) (blocks : List NodeId) : Session :=
  { s with workspace := s.workspace.list blocks }

theorem recast_list (hs : s.workspace.Knows outer e μ) (blocks : List NodeId) :
    (s.recast μ).list blocks = (s.list blocks).recast (μ.after e (s.forest.childIds blocks)) :=
  congrArg (fun w : Workspace => { s with workspace := w }) (hs.recast_list blocks)

theorem recast_list_eq (hs : s.workspace.Knows outer e μ) (blocks : List NodeId) :
    (s.recast μ).list blocks = s.recast (μ.after e (s.forest.childIds blocks)) :=
  congrArg (fun w : Workspace => { s with workspace := w }) (hs.recast_list_eq blocks)

theorem knows_list (hs : s.workspace.Knows outer e μ) (blocks : List NodeId) :
    (s.list blocks).workspace.Knows outer e (μ.after e (s.forest.childIds blocks)) :=
  hs.list blocks

end Session

namespace Step

/-- The result of a part of an action, and the session after it. -/
def exec (m : Step α) (s : Session) : Except ActionFault α × Session := m.run.run s

/-- How a part of an action ends in a session, and with other memories. These still fit. -/
inductive Agrees (outer : List NodeId) (e : Memories) (Q : α → α → Session → Memories → Prop) :
    Except ActionFault α × Session → Except ActionFault α × Session → Prop
  | ok {a a' : α} {s : Session} {μ : Memories} (hfits : s.workspace.Fits outer e μ)
      (h : Q a a' s μ) : Agrees outer e Q (.ok a, s) (.ok a', s.recast μ)
  | error (x : ActionFault) {s : Session} {μ : Memories} (hfits : s.workspace.Fits outer e μ) :
      Agrees outer e Q (.error x, s) (.error x, s.recast μ)

theorem exec_bind (m : Step α) (k : α → Step β) (s : Session) :
    (m >>= k).exec s =
      match m.exec s with
      | (.ok a, s) => (k a).exec s
      | (.error x, s) => (.error x, s) := by
  simp only [exec, ExceptT.run_bind, StateT.run_bind]
  rcases m.run.run s with ⟨x | a, s₁⟩ <;> rfl

theorem exec_get_bind (k : Session → Step α) (s : Session) :
    ((get : Step Session) >>= k).exec s = (k s).exec s := rfl

theorem exec_ofExcept_bind (a : α) (k : α → Step β) (s : Session) :
    ((ofExcept (.ok a)) >>= k).exec s = (k a).exec s := rfl

namespace Agrees

variable {Q : α → α → Session → Memories → Prop} {R : β → β → Session → Memories → Prop}

theorem bind {m m' : Step α} {k k' : α → Step β} (hm : Agrees outer e Q (m.exec s) (m'.exec s'))
    (hk : ∀ a a' s μ, s.workspace.Fits outer e μ → Q a a' s μ →
      Agrees outer e R ((k a).exec s) ((k' a').exec (s.recast μ))) :
    Agrees outer e R ((m >>= k).exec s) ((m' >>= k').exec s') := by
  rw [exec_bind, exec_bind]
  generalize m.exec s = out at hm
  generalize m'.exec s' = out' at hm
  cases hm with
  | ok hfits h => exact hk _ _ _ _ hfits h
  | error x hfits => exact .error x hfits

theorem pure {a a' : α} (hfits : s.workspace.Fits outer e μ) (h : Q a a' s μ) :
    Agrees outer e Q ((Pure.pure a : Step α).exec s)
      ((Pure.pure a' : Step α).exec (s.recast μ)) :=
  .ok hfits h

theorem throw (x : ActionFault) (hfits : s.workspace.Fits outer e μ) :
    Agrees outer e Q ((MonadExcept.throw x : Step α).exec s)
      ((MonadExcept.throw x : Step α).exec (s.recast μ)) :=
  .error x hfits

theorem mono {out out' : Except ActionFault α × Session}
    {Q' : α → α → Session → Memories → Prop} (h : Agrees outer e Q out out')
    (hQ : ∀ a a' s μ, Q a a' s μ → Q' a a' s μ) : Agrees outer e Q' out out' := by
  cases h with
  | ok hfits h => exact .ok hfits (hQ _ _ _ _ h)
  | error x hfits => exact .error x hfits

/-- The children of blocks are listed in both sessions. -/
theorem list_bind (hs : s.workspace.Knows outer e μ) (blocks : List NodeId) {k k' : Unit → Step β}
    (hk : Agrees outer e R ((k ()).exec (s.list blocks))
      ((k' ()).exec ((s.list blocks).recast (μ.after e (s.forest.childIds blocks))))) :
    Agrees outer e R ((Step.list blocks >>= k).exec s)
      ((Step.list blocks >>= k').exec (s.recast μ)) := by
  rw [exec_bind, exec_bind]
  change Agrees outer e R ((k ()).exec (s.list blocks)) ((k' ()).exec ((s.recast μ).list blocks))
  rwa [Session.recast_list hs]

/-- A workspace is taken over in both sessions. -/
theorem install_bind (w : Workspace) {k k' : Unit → Step β}
    (hk : Agrees outer e R ((k ()).exec { s with workspace := w })
      ((k' ()).exec (Session.recast μ { s with workspace := w }))) :
    Agrees outer e R ((Step.install w >>= k).exec s)
      ((Step.install (w.recast μ) >>= k').exec (s.recast ν)) :=
  hk

end Agrees

/-! ## Targets -/

/-- A live node is found in both sessions. -/
structure Finds (outer : List NodeId) (e : Memories) (s : Session) (t t' : Tree) (s' : Session)
    (μ : Memories) : Prop where
  eq : t' = t.recast μ
  mem : t ∈ Forest.nodes s'.forest
  knows : s'.workspace.Knows outer e μ
  later : ∀ u u', s.workspace.AtHand e u u' → s'.workspace.AtHand e u u'

theorem descend_recast (t : Tree) (steps : List (Option Nat)) :
    descend (t.recast μ) steps =
      ((descend t steps).1, (descend t steps).2.map (Tree.recast μ)) := by
  induction steps generalizing t with
  | nil => cases t <;> rfl
  | cons step steps ih =>
    cases t with
    | comment core text => cases step <;> rfl
    | directive core statement => cases step <;> rfl
    | block core statement children =>
      cases step with
      | none => rfl
      | some i =>
        rw [Tree.recast_block, descend, descend, List.getElem?_map]
        cases children[i]? with
        | none => rfl
        | some child => simp only [Option.map_some, ih]

theorem mem_nodes_of_descend {steps : List (Option Nat)} (h : (descend t steps).2 = some u) :
    u ∈ t.nodes := by
  induction steps generalizing t with
  | nil =>
    obtain rfl : t = u := by cases t <;> exact Option.some.inj h
    exact t.self_mem_nodes
  | cons step steps ih =>
    cases t with
    | comment core text => cases step <;> cases h
    | directive core statement => cases step <;> cases h
    | block core statement children =>
      cases step with
      | none => cases h
      | some i =>
        rw [descend] at h
        cases hchild : children[i]? with
        | none => simp [hchild] at h
        | some child =>
          rw [hchild] at h
          exact Tree.mem_nodes_of_mem_children
            (Forest.mem_nodes.2 ⟨child, List.mem_of_getElem? hchild, ih h⟩)

end Step

namespace Session

/-- The node that a target leads to. -/
def node? (s : Session) (target : Target) : Option Tree :=
  ((s.handles.lookup target.handle).bind s.forest.find?).bind fun top =>
    (Step.descend top target.steps).2

theorem mem_nodes_of_node? {target : Target} (ht : s.node? target = some t) :
    t ∈ Forest.nodes s.forest := by
  obtain ⟨top, htop, hdescend⟩ := Option.bind_eq_some_iff.1 ht
  obtain ⟨id, -, hfind⟩ := Option.bind_eq_some_iff.1 htop
  exact (Forest.nodes_sublist _ (Forest.mem_nodes_of_find? hfind).1).subset
    (Step.mem_nodes_of_descend hdescend)

/-- Handles hold the same nodes. -/
theorem lookup_recast (s : Session) (handle : String) :
    ((s.recast μ).handles.lookup handle).bind (s.recast μ).forest.find? =
      ((s.handles.lookup handle).bind s.forest.find?).map (Tree.recast μ) := by
  rw [recast_handles]
  cases s.handles.lookup handle with
  | none => rfl
  | some id => exact Forest.find?_recast s.forest id

end Session

namespace Step

/-- A live node is found by its number. -/
theorem find?_live (μ : Memories) (hsound : s.workspace.Sound) (hid : t'.id = t.id)
    (ht : ∃ u ∈ Forest.nodes s.forest, u.id = t.id) :
    ∃ u ∈ Forest.nodes s.forest, s.forest.find? t.id = some u ∧
      (s.recast μ).forest.find? t'.id = some (u.recast μ) := by
  obtain ⟨u, hu, huid⟩ := ht
  have hfind : s.forest.find? t.id = some u := huid ▸ hsound.tidy.find?_eq hu
  refine ⟨u, hu, hfind, ?_⟩
  rw [hid, Session.recast_forest, Forest.find?_recast, hfind]
  rfl

/-- The present state of a node that is alive. -/
theorem agrees_refresh (hs : s.workspace.Knows outer e μ) (hid : t'.id = t.id)
    (ht : ∃ u ∈ Forest.nodes s.forest, u.id = t.id) :
    Agrees outer e (Finds outer e s) ((refresh t).exec s) ((refresh t').exec (s.recast μ)) := by
  obtain ⟨u, hu, hfind, hfind'⟩ := find?_live μ hs.sound hid ht
  change Agrees outer e _ (.ok ((s.forest.find? t.id).getD t), s)
    (.ok (((s.recast μ).forest.find? t'.id).getD t'), s.recast μ)
  rw [hfind, hfind']
  exact .ok hs.fits ⟨rfl, hu, hs, fun _ _ h => h⟩

/-- Whoever was alive is so after nodes were listed. -/
theorem exists_id_list (hs : s.workspace.Knows outer e μ) (blocks : List NodeId)
    (ht : t ∈ Forest.nodes s.forest) :
    ∃ u ∈ Forest.nodes (s.list blocks).forest, u.id = t.id := by
  obtain ⟨u, hu, hcore⟩ := (hs.atHand_list (hs.atHand ht) blocks).exists_core
  exact ⟨u, hu, congrArg Core.id hcore⟩

/-- The node of a target. -/
theorem agrees_resolve (hs : s.workspace.Knows outer e μ) (target : Target) :
    Agrees outer e (Finds outer e s) ((resolve target).exec s)
      ((resolve target).exec (s.recast μ)) := by
  rw [resolve, exec_get_bind, exec_get_bind, Session.lookup_recast]
  cases hlookup : (s.handles.lookup target.handle).bind s.forest.find? with
  | none => exact .throw _ hs.fits
  | some top =>
    simp only [Option.map_some, descend_recast]
    refine .list_bind hs _ ?_
    have hlist := hs.list (descend top target.steps).1
    cases hdescend : (descend top target.steps).2 with
    | none => exact .throw _ hlist.fits
    | some t =>
      have hnode : s.node? target = some t := by
        rw [Session.node?, hlookup, Option.bind_some, hdescend]
      have ht := Session.mem_nodes_of_node? hnode
      refine (agrees_refresh hlist Tree.recast_id (exists_id_list hs _ ht)).mono
        fun t t' s' μ' h => ⟨h.eq, h.mem, h.knows, fun u u' hu => ?_⟩
      exact h.later u u' (hs.atHand_list hu _)

theorem agrees_resolveBlock (hs : s.workspace.Knows outer e μ) (target : Target) :
    Agrees outer e (fun t t' s' μ' => Finds outer e s t t' s' μ' ∧ t.isBlock = true)
      ((resolveBlock target).exec s) ((resolveBlock target).exec (s.recast μ)) := by
  refine (agrees_resolve hs target).bind fun t t' s' μ' hfits h => ?_
  obtain rfl := h.eq
  rw [Tree.recast_isBlock]
  split
  · rename_i hblock
    exact .pure hfits ⟨h, hblock⟩
  · exact .throw _ hfits

/-! ## Answers -/

/-- Answers that a caller cannot tell apart. -/
def SameReply (a a' : Answer) (_ : Session) (_ : Memories) : Prop := a.reply = a'.reply

theorem content_recast (t : Tree) : (t.recast μ).content = t.content := by
  cases t <;> rfl

theorem view_recast (hsound : s.workspace.Sound) (hsteady : s.forest.IsSteadyFor μ)
    (ht : t ∈ Forest.nodes s.forest) :
    (t.recast μ).view (s.recast μ).forest = t.view s.forest := by
  rw [Tree.view, Tree.recast_core, content_recast, Tree.recast_isActive, Tree.view]
  congr 1
  exact hsound.enabled_recast_of_mem hsteady ht

theorem exec_refresh (t : Tree) (s : Session) :
    (refresh t).exec s = (.ok ((s.forest.find? t.id).getD t), s) := rfl

/-- A live node is answered, and maybe held. -/
theorem agrees_answerNode (hfits : s.workspace.Fits outer e μ) (hsteady : s.forest.IsSteadyFor μ)
    (hid : t'.id = t.id) (ht : ∃ u ∈ Forest.nodes s.forest, u.id = t.id) (hold : Option String) :
    Agrees outer e SameReply ((answerNode hold t).exec s)
      ((answerNode hold t').exec (s.recast μ)) := by
  obtain ⟨u, hu, hfind, hfind'⟩ := find?_live μ hfits.sound hid ht
  have hreply : (Answer.node s.forest u).reply =
      (Answer.node (s.recast μ).forest (u.recast μ)).reply :=
    congrArg Reply.node (view_recast hfits.sound hsteady hu).symm
  rw [answerNode, exec_bind, exec_refresh, hfind, answerNode, exec_bind, exec_refresh, hfind']
  cases hold with
  | none => exact .ok hfits hreply
  | some name =>
    have hheld : (s.recast μ).hold name (u.recast μ).id = (s.hold name u.id).recast μ := by
      rw [Tree.recast_id]
      rfl
    change Agrees outer e _ (.ok _, s.hold name u.id)
      (.ok _, (s.recast μ).hold name (u.recast μ).id)
    rw [hheld]
    exact .ok hfits hreply

/-- The present states of some nodes. -/
def refreshAll (s : Session) (ts : List Tree) : List Tree :=
  ts.map fun t => (s.forest.find? t.id).getD t

theorem exec_mapM_refresh (ts : List Tree) (s : Session) :
    (ts.mapM refresh).exec s = (.ok (refreshAll s ts), s) := by
  induction ts with
  | nil => rfl
  | cons t ts ih =>
    rw [List.mapM_cons, exec_bind, exec_refresh]
    simp only [exec_bind, ih]
    rfl

/-- Nodes are held under the handles with their indices. -/
def holdAll (name : String) (ts : List (Tree × Nat)) (s : Session) : Session :=
  ts.foldl (fun s (t, i) => s.hold (name ++ toString i) t.id) s

theorem recast_holdAll (name : String) (ts : List (Tree × Nat)) (s : Session) :
    holdAll name (ts.map (Prod.map (Tree.recast μ) id)) (s.recast μ) =
      (holdAll name ts s).recast μ := by
  induction ts generalizing s with
  | nil => rfl
  | cons t ts ih =>
    rw [List.map_cons, holdAll, List.foldl_cons, holdAll, List.foldl_cons]
    have hheld : (s.recast μ).hold (name ++ toString t.2) (t.1.recast μ).id =
        (s.hold (name ++ toString t.2) t.1.id).recast μ := by
      rw [Tree.recast_id]
      rfl
    exact (congrArg (holdAll name _) hheld).trans (ih _)

theorem workspace_holdAll (name : String) (ts : List (Tree × Nat)) (s : Session) :
    (holdAll name ts s).workspace = s.workspace := by
  induction ts generalizing s with
  | nil => rfl
  | cons t ts ih => exact ih _

/-- Live nodes are answered, and maybe held. -/
theorem agrees_answerNodes (hfits : s.workspace.Fits outer e μ) (hsteady : s.forest.IsSteadyFor μ)
    {ts : List Tree} (hts : ∀ t ∈ ts, ∃ u ∈ Forest.nodes s.forest, u.id = t.id)
    (hold : Option String) :
    Agrees outer e SameReply ((answerNodes hold ts).exec s)
      ((answerNodes hold (ts.map (Tree.recast ν))).exec (s.recast μ)) := by
  have hfind : ∀ t ∈ ts, ∃ u ∈ Forest.nodes s.forest, s.forest.find? t.id = some u := by
    intro t ht
    obtain ⟨u, hu, hid⟩ := hts t ht
    exact ⟨u, hu, hid ▸ hfits.sound.tidy.find?_eq hu⟩
  have hlive : ∀ t ∈ refreshAll s ts, t ∈ Forest.nodes s.forest := by
    intro u hu
    obtain ⟨t, ht, rfl⟩ := List.mem_map.1 hu
    obtain ⟨u, hu, hfound⟩ := hfind t ht
    rwa [hfound]
  have hrefresh : refreshAll (s.recast μ) (ts.map (Tree.recast ν)) =
      (refreshAll s ts).map (Tree.recast μ) := by
    rw [refreshAll, refreshAll, List.map_map, List.map_map]
    refine List.map_congr_left fun t ht => ?_
    obtain ⟨u, -, hfound⟩ := hfind t ht
    rw [Function.comp_apply, Function.comp_apply, Session.recast_forest, Forest.find?_recast,
      Tree.recast_id, hfound]
    rfl
  have hreply : (Answer.nodes s.forest (refreshAll s ts)).reply =
      (Answer.nodes (s.recast μ).forest ((refreshAll s ts).map (Tree.recast μ))).reply := by
    refine congrArg Reply.nodes ?_
    rw [List.map_map]
    exact List.map_congr_left fun t ht => (view_recast hfits.sound hsteady (hlive t ht)).symm
  rw [answerNodes, exec_bind, exec_mapM_refresh, answerNodes, exec_bind, exec_mapM_refresh,
    hrefresh]
  cases hold with
  | none => exact .ok hfits hreply
  | some name =>
    change Agrees outer e _ (.ok _, holdAll name (refreshAll s ts).zipIdx s)
      (.ok _, holdAll name ((refreshAll s ts).map (Tree.recast μ)).zipIdx (s.recast μ))
    rw [List.zipIdx_map, recast_holdAll]
    refine .ok ?_ hreply
    rw [workspace_holdAll]
    exact hfits

/-- A result that goes by no memory. -/
theorem Agrees.reply (a : Answer) (hfits : s.workspace.Fits outer e μ) :
    Agrees outer e SameReply ((Pure.pure a : Step Answer).exec s)
      ((Pure.pure a : Step Answer).exec (s.recast μ)) :=
  .ok hfits rfl

end Step

end HttpdConf
