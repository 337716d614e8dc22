import HttpdConf.Proofs.Replies

/-!
# Actions with other memories

Every action has the same answer in two sessions that differ only in memories that fit, as far as a
caller can tell, and the sessions it leaves again differ only in memories that fit. Actions that
leave the trees alone are put together from targets, listing and answers. For the others it takes in
addition that outermost nodes still go by the same, and they do, since no action itself ends a node:
only afterwards those go that nobody holds.

## Main definitions

* `Step.AnswersAlike`: an action has the same answer with other memories

## Main results

* `Step.agrees_search`: searches and lists of children
* `Step.agrees_made`, `Step.agrees_addTo`, `Step.agrees_constructed`: new nodes
* `Step.agrees_delete`, `Step.agrees_setParameters`, `Step.agrees_write`: other changes
* `Step.agrees_perform`: every action agrees
-/

namespace HttpdConf

variable {outer : List NodeId} {μ μ' ν e : Memories} {w : Workspace} {t t' : Tree} {s : Session}
  {α β : Type}

namespace Step

/-- An action is answered alike with other memories. -/
def AnswersAlike (s : Session) (outer : List NodeId) (e μ : Memories) (action : Action) : Prop :=
  Agrees outer e SameReply ((perform action).exec s) ((perform action).exec (s.recast μ))

/-! ## Questions -/

theorem agrees_get (hs : s.workspace.Knows outer e μ) (target : Target) (hold : Option String) :
    AnswersAlike s outer e μ (.get target hold) := by
  refine (agrees_resolve hs target).bind fun t t' s μ hfits h => ?_
  obtain ⟨rfl, ht, hs, -⟩ := h
  exact agrees_answerNode hfits hs.steady Tree.recast_id ⟨t, ht, rfl⟩ hold

/-- A search answers the nodes it finds. -/
theorem agrees_search (hs : s.workspace.Knows outer e μ) (target : Target) (hold : Option String)
    (listed : Tree → List NodeId) (found : Tree → List Tree)
    (hlisted : ∀ μ t, listed (t.recast μ) = listed t)
    (hfound : ∀ μ t, found (t.recast μ) = (found t).map (Tree.recast μ))
    (hbelow : ∀ t, (found t).Sublist (Forest.nodes t.children)) :
    Agrees outer e SameReply
      ((do
        let t ← resolveBlock target
        Step.list (listed t)
        answerNodes hold (found t)).exec s)
      ((do
        let t ← resolveBlock target
        Step.list (listed t)
        answerNodes hold (found t)).exec (s.recast μ)) := by
  refine (agrees_resolveBlock hs target).bind fun t t' s μ _ h => ?_
  obtain ⟨⟨rfl, ht, hs, -⟩, -⟩ := h
  rw [hlisted, hfound]
  refine .list_bind hs (listed t) ?_
  have hlist := Session.knows_list hs (listed t)
  exact agrees_answerNodes hlist.fits hlist.steady
    (fun u hu => exists_id_list hs _ (Forest.mem_nodes_of_below ht ((hbelow t).subset hu))) hold

theorem agrees_children (hs : s.workspace.Knows outer e μ) (target : Target)
    (hold : Option String) :
    AnswersAlike s outer e μ (.children target hold) :=
  agrees_search hs target hold (fun t => [t.id]) Tree.children
    (fun _ _ => congrArg (fun id => [id]) Tree.recast_id) (fun _ _ => Tree.recast_children)
    fun t => Forest.sublist_nodes t.children

/-- A node is answered that is found around the target. -/
theorem agrees_ancestor (hs : s.workspace.Knows outer e μ) (target : Target)
    (hold : Option String) :
    AnswersAlike s outer e μ (.ancestor target hold) := by
  refine (agrees_resolve hs target).bind fun t t' s μ hfits h => ?_
  obtain ⟨rfl, ht, hs, -⟩ := h
  rw [exec_get_bind, exec_get_bind, Session.recast_forest, Tree.recast_core, Forest.lineage_recast,
    List.head?_map]
  cases hblock : (s.forest.lineage t.core).head? with
  | none => exact .reply _ hfits
  | some block =>
    have hmem := (hs.sound.tidy.mem_lineageUpTo (List.mem_of_head? hblock)).1
    exact agrees_answerNode hfits hs.steady Tree.recast_id ⟨block, hmem, rfl⟩ hold

theorem agrees_root (hs : s.workspace.Knows outer e μ) (target : Target) (hold : Option String) :
    AnswersAlike s outer e μ (.root target hold) := by
  refine (agrees_resolveBlock hs target).bind fun t t' s μ hfits h => ?_
  obtain ⟨⟨rfl, ht, hs, -⟩, -⟩ := h
  rw [exec_get_bind, exec_get_bind, Session.recast_forest, Forest.root_recast]
  exact agrees_answerNode hfits hs.steady Tree.recast_id ⟨_, hs.sound.tidy.root_mem ht, rfl⟩ hold

theorem agrees_findAncestors (hs : s.workspace.Knows outer e μ) (target : Target) (name : String)
    (hold : Option String) :
    AnswersAlike s outer e μ (.findAncestors target name hold) := by
  refine (agrees_resolve hs target).bind fun t t' s μ hfits h => ?_
  obtain ⟨rfl, ht, hs, -⟩ := h
  have hfound : Forest.findAncestors (s.recast μ).forest (t.recast μ) name =
      (s.forest.findAncestors t name).map (Tree.recast μ) := by
    rw [Forest.findAncestors, Session.recast_forest, Tree.recast_core, Forest.lineage_recast,
      List.filter_map, Forest.findAncestors]
    congr 2
    exact funext fun u => by simp
  rw [exec_get_bind, exec_get_bind, hfound]
  exact agrees_answerNodes hfits hs.steady
    (fun u hu => ⟨u, (hs.sound.tidy.mem_lineageUpTo (List.mem_of_mem_filter hu)).1, rfl⟩) hold

theorem agrees_dump (hs : s.workspace.Knows outer e μ) (target : Target) :
    AnswersAlike s outer e μ (.dump target) := by
  refine (agrees_resolve hs target).bind fun t t' s μ _ h => ?_
  obtain ⟨rfl, ht, hs, -⟩ := h
  rw [Tree.listed_recast]
  refine .list_bind hs (t.listed false) ?_
  have hlist := Session.knows_list hs (t.listed false)
  have hlive := exists_id_list hs (t.listed false) ht
  generalize μ.after e (s.forest.childIds (t.listed false)) = μ at hlist
  generalize s.list (t.listed false) = s at hlist hlive
  obtain ⟨u, hu, hfind, hfind'⟩ := find?_live μ hlist.sound Tree.recast_id hlive
  have hnodes : (u.recast μ).nodes = u.nodes.map (Tree.recast μ) := Tree.nodes_mapStatements u
  have hreply : (Answer.tree s.forest u).reply =
      (Answer.tree (s.recast μ).forest (u.recast μ)).reply := by
    rw [Answer.reply, Answer.reply, hnodes, List.map_map]
    refine congrArg Reply.tree (List.map_congr_left fun v hv => ?_)
    have hv := (Forest.nodes_sublist _ hu).subset hv
    rw [Function.comp_apply, view_recast hlist.sound hlist.steady hv, Tree.recast_children,
      List.length_map]
  rw [exec_get_bind, exec_get_bind, exec_bind, exec_refresh, hfind, exec_bind, exec_refresh, hfind']
  exact .ok hlist.fits hreply

theorem agrees_compare (hs : s.workspace.Knows outer e μ) (a b : Target) :
    AnswersAlike s outer e μ (.compare a b) := by
  refine (agrees_resolve hs a).bind fun t t' s μ _ h => ?_
  obtain ⟨rfl, ht, hs, -⟩ := h
  refine (agrees_resolve hs b).bind fun u u' s' μ' _ h => ?_
  obtain ⟨rfl, hu, hs', hlater⟩ := h
  have hcompare : Forest.compareNodes (s'.recast μ').forest (t.recast μ) (u.recast μ') =
      s'.forest.compareNodes t u :=
    Forest.compareNodes_recast (hs'.enabled_recast (hlater t _ (hs.atHand ht)))
      (hs'.enabled_recast (hs'.atHand hu))
  rw [exec_get_bind, exec_get_bind, hcompare]
  refine .list_bind hs' _ ?_
  rw [Tree.recast_id, Tree.recast_id, Tree.recast_core, Tree.recast_core]
  exact .reply _ (Session.knows_list hs' _).fits

/-- The nodes of some targets. -/
theorem agrees_mapM_resolve (hs : s.workspace.Knows outer e μ) (targets : List Target) :
    Agrees outer e
      (fun ts ts' s' μ' => ts'.map Tree.forget = ts.map Tree.forget ∧
        s'.workspace.Knows outer e μ')
      ((targets.mapM resolve).exec s) ((targets.mapM resolve).exec (s.recast μ)) := by
  induction targets generalizing s μ with
  | nil => exact .ok hs.fits ⟨rfl, hs⟩
  | cons target targets ih =>
    rw [List.mapM_cons]
    refine (agrees_resolve hs target).bind fun t t' s μ _ h => ?_
    refine (ih h.knows).bind fun ts ts' s' μ' hfits h' => ?_
    refine .pure hfits ⟨?_, h'.2⟩
    rw [List.map_cons, List.map_cons, h'.1, h.eq, Tree.recast_forget]

theorem agrees_render (hs : s.workspace.Knows outer e μ) (targets : List Target) :
    AnswersAlike s outer e μ (.render targets) := by
  refine (agrees_mapM_resolve hs targets).bind fun ts ts' s μ _ h => ?_
  obtain ⟨hforget, hs⟩ := h
  rw [Tree.map_renderListed_congr hforget]
  refine .list_bind hs _ ?_
  rw [exec_get_bind, exec_get_bind, Session.recast_forest, Forest.render_recast _ hforget]
  exact .reply _ (Session.knows_list hs _).fits

theorem agrees_origin (hs : s.workspace.Knows outer e μ) (target : Target) :
    AnswersAlike s outer e μ (.origin target) := by
  refine (agrees_resolve hs target).bind fun t t' s μ hfits h => ?_
  obtain ⟨rfl, -, -, -⟩ := h
  rw [Tree.recast_core]
  exact .reply _ hfits

theorem agrees_policy (hs : s.workspace.Knows outer e μ) (target : Target) :
    AnswersAlike s outer e μ (.policy target) := by
  refine (agrees_resolveBlock hs target).bind fun t t' s μ hfits h => ?_
  obtain ⟨⟨rfl, -, -, -⟩, -⟩ := h
  rw [Tree.recast_core]
  exact .reply _ hfits

theorem agrees_unsaved (hs : s.workspace.Knows outer e μ) (target : Target) :
    AnswersAlike s outer e μ (.unsaved target) := by
  refine (agrees_resolveBlock hs target).bind fun t t' s μ _ h => ?_
  obtain ⟨⟨rfl, -, hs, -⟩, -⟩ := h
  rw [Tree.blockIds_dirtyNodes_recast, Tree.unsavedFiles_recast]
  refine .list_bind hs _ ?_
  exact .reply _ (Session.knows_list hs _).fits

theorem agrees_checkpoints (hs : s.workspace.Knows outer e μ) (target : Target) :
    AnswersAlike s outer e μ (.checkpoints target) := by
  refine (agrees_resolveBlock hs target).bind fun t t' s μ hfits h => ?_
  obtain ⟨⟨rfl, -, -, -⟩, -⟩ := h
  have hcheckpoints : (s.recast μ).workspace.checkpoints (t.recast μ) =
      s.workspace.checkpoints t := by
    rw [Workspace.checkpoints, Tree.recast_core]
    rfl
  rw [exec_get_bind, exec_get_bind, hcheckpoints]
  exact .reply _ hfits

/-! ## Changes -/

/-- A node is taken out of the block alike. -/
theorem agrees_delete (hs : s.workspace.Knows outer e μ) (target child : Target) :
    AnswersAlike s outer e μ (.delete target child) := by
  refine (agrees_resolve hs child).bind fun c c' s μ _ h => ?_
  obtain ⟨rfl, -, hs, -⟩ := h
  refine (agrees_resolveBlock hs target).bind fun b b' s μ _ h => ?_
  obtain ⟨⟨rfl, hb, hs, -⟩, -⟩ := h
  rw [Tree.recast_id, Tree.recast_id]
  refine .list_bind hs [b.id] ?_
  refine (agrees_refresh (Session.knows_list hs _) Tree.recast_id (exists_id_list hs _ hb)).bind
    fun b b' s μ _ h => ?_
  obtain ⟨rfl, hb, hs, -⟩ := h
  have hdelete : ∀ μ, (s.workspace.recast μ).deleteChild (b.recast μ) c.id =
      (s.workspace.deleteChild b c.id).map (Workspace.recast μ) := fun μ =>
    Workspace.deleteChild_mapStatements Statement.ignoresFlags_recast b c.id
  rw [exec_get_bind, exec_get_bind, Session.recast_workspace, hdelete, Tree.recast_children,
    List.length_map]
  cases hmade : s.workspace.deleteChild b c.id with
  | error x => exact .error _ hs.fits
  | ok w =>
    have hfits : w.Fits outer e μ := by
      refine hs.fits.of_remembers
        (hs.sound.effect (Workspace.effect_deleteChild hb hmade)) fun ν hν => ?_
      have hsame := hdelete ν
      rw [Workspace.recast_of_remembers hν, hν.recast_mem hb, hmade] at hsame
      exact Forest.remembers_of_recast_eq (congrArg Workspace.forest (Except.ok.inj hsame)).symm
    rw [Except.map, exec_ofExcept_bind, exec_ofExcept_bind]
    refine .install_bind w ?_
    exact .reply _ hfits

/-- A checkpoint is recorded alike. -/
theorem agrees_save (hs : s.workspace.Knows outer e μ) (target : Target) (message : String) :
    AnswersAlike s outer e μ (.save target message) := by
  refine (agrees_resolve hs target).bind fun t t' s μ _ h => ?_
  obtain ⟨rfl, -, hs, -⟩ := h
  rw [Tree.blockIds_dirtyNodes_recast]
  refine .list_bind hs _ ?_
  have hfits := (Session.knows_list hs (blockIds t.dirtyNodes)).fits
  generalize μ.after e (s.forest.childIds (blockIds t.dirtyNodes)) = μ' at hfits
  generalize s.list (blockIds t.dirtyNodes) = s at hfits
  have hsave : (s.recast μ').workspace.save (t.recast μ) message =
      ((s.workspace.save t message).1, (s.workspace.save t message).2.recast μ') :=
    Workspace.save_recast t message
  have hsaved : (s.workspace.save t message).2.Fits outer e μ' := by
    rw [Workspace.save]
    split
    · exact hfits.of_remembers (hfits.sound.effect (.record _)) fun _ hν => hν
    · exact hfits
  rw [exec_get_bind, exec_get_bind, hsave]
  refine .install_bind (s.workspace.save t message).2 ?_
  exact .reply _ hsaved

theorem agrees_markClean (hs : s.workspace.Knows outer e μ) (target : Target) :
    AnswersAlike s outer e μ (.markClean target) := by
  refine (agrees_resolveBlock hs target).bind fun t t' s μ _ h => ?_
  obtain ⟨⟨rfl, -, hs, -⟩, -⟩ := h
  have hunclean : blockIds ((t.recast μ).reached Core.isUnclean) =
      blockIds (t.reached Core.isUnclean) := Tree.blockIds_reached_recast _
  rw [hunclean]
  refine .list_bind hs _ ?_
  have hfits := (Session.knows_list hs (blockIds (t.reached Core.isUnclean))).fits
  generalize μ.after e (s.forest.childIds (blockIds (t.reached Core.isUnclean))) = μ' at hfits
  generalize s.list (blockIds (t.reached Core.isUnclean)) = s at hfits
  have hclean : ∀ μ, (s.workspace.recast μ).markClean t = (s.workspace.markClean t).recast μ :=
    fun μ => by
      rw [Workspace.recast, Workspace.recast,
        ← Workspace.markClean_mapStatements Statement.ignoresFlags_recast t, Workspace.markClean,
        Workspace.markClean, Tree.mapStatements_id]
  have hcleaned : (s.workspace.markClean t).Fits outer e μ' := by
    refine hfits.of_remembers (hfits.sound.effect (.markClean t)) fun ν hν => ?_
    have hsame := hclean ν
    rw [Workspace.recast_of_remembers hν] at hsame
    exact Forest.remembers_of_recast_eq (congrArg Workspace.forest hsame).symm
  have hdirty : Option.map (fun u : Tree => u.core.dirty)
      (((s.workspace.markClean t).recast μ').forest.find? t.id) =
        ((s.workspace.markClean t).forest.find? t.id).map fun u => u.core.dirty := by
    rw [Workspace.recast_forest, Forest.find?_recast, Option.map_map]
    congr 1
    exact funext fun u => congrArg Core.dirty Tree.recast_core
  have hstale : (s.workspace.recast μ').markClean (t.recast μ) =
      (s.workspace.markClean t).recast μ' := by
    rw [← hclean μ', Workspace.markClean, Tree.recast_id, Workspace.markClean]
  rw [exec_get_bind, exec_get_bind, Session.recast_workspace, hstale, Tree.recast_id]
  refine .install_bind (s.workspace.markClean t) ?_
  rw [hdirty]
  exact .reply _ hcleaned

/-- What becomes of a session when files were written. -/
def concludeWrite (s : Session) (out : (Except Error (List Path) × Workspace) × Store) :
    Except ActionFault Answer × Session :=
  (.ok (.written out.1.1 out.2), { s with workspace := out.1.2, store := out.2 })

/-- The writers of a session do not look at what nodes remember. -/
theorem ignoresMemories_writerOf (writer : WriterKind) : (writerOf writer).IgnoresMemories := by
  cases writer with
  | store refused =>
    have hstore : Store.writer.IgnoresMemories := Writer.ignoresMemories_ofText _
    intro μ path f nodes
    simp only [writerOf, storeWriter, hstore μ path f nodes]
  | unreachable =>
    exact Writer.ignoresMemories_ofText fun _ _ => (return .error (.io .missing) : StateM Store _)

/-- Files are written alike. -/
theorem agrees_write (hs : s.workspace.Knows outer e μ) (target : Target) (writer : WriterKind) :
    AnswersAlike s outer e μ (.write target writer) := by
  refine (agrees_resolveBlock hs target).bind fun t t' s μ _ h => ?_
  obtain ⟨⟨rfl, -, hs, -⟩, -⟩ := h
  obtain ⟨μ', hwrite, hfits⟩ :=
    hs.exists_writeUnsaved_recast (ignoresMemories_writerOf writer) t s.store
  rw [exec_get_bind, exec_get_bind]
  change Agrees outer e SameReply
    (concludeWrite s (Id.run ((s.workspace.writeUnsaved (writerOf writer) t).run s.store)))
    (concludeWrite (s.recast μ) (Id.run (((s.workspace.recast μ).writeUnsaved
      (writerOf writer) (t.recast μ)).run s.store)))
  rw [hwrite]
  generalize Id.run ((s.workspace.writeUnsaved (writerOf writer) t).run s.store) = out at hfits
  exact .ok (s := { s with workspace := out.1.2, store := out.2 }) hfits rfl

theorem agrees_written (hs : s.workspace.Knows outer e μ) (path : Path) :
    AnswersAlike s outer e μ (.written path) :=
  .ok hs.fits rfl

theorem agrees_drop (hs : s.workspace.Knows outer e μ) (names : List String) :
    AnswersAlike s outer e μ (.drop names) :=
  .ok (s := { s with handles := s.handles.filter fun held => !names.contains held.1 }) hs.fits rfl

/-- A workspace is taken over, and one of its nodes is answered. -/
theorem agrees_installed (hs : s.workspace.Knows outer e μ) (hfits : w.Fits outer e μ')
    (hext : w.forest.Extends s.forest) (hid : t'.id = t.id)
    (ht : ∃ u ∈ Forest.nodes w.forest, u.id = t.id) (hold : Option String) :
    Agrees outer e SameReply ((do install w; answerNode hold t).exec s)
      ((do install (w.recast μ'); answerNode hold t').exec (s.recast μ)) := by
  refine .install_bind w ?_
  refine agrees_answerNode ?_ ?_ hid ?_ hold
  · exact hfits
  · exact hs.steady_of_extends hfits hext
  · exact ht

theorem agrees_setParameters (hs : s.workspace.Knows outer e μ) (target : Target)
    (parameters : List String) (hold : Option String) :
    AnswersAlike s outer e μ (.setParameters target parameters hold) := by
  refine (agrees_resolve hs target).bind fun t t' s μ _ h => ?_
  obtain ⟨rfl, ht, hs, -⟩ := h
  have hstatement : (t.recast μ).statement?.isNone = t.statement?.isNone := by
    cases t <;> rfl
  rw [hstatement]
  by_cases hnone : t.statement?.isNone = true
  · rw [if_pos hnone, if_pos hnone]
    exact .error _ hs.fits
  · rw [if_neg hnone, if_neg hnone]
    change Agrees outer e SameReply
      ((ofExcept (s.workspace.setParameters t parameters) >>= fun w => do
        install w
        answerNode hold t).exec s)
      ((ofExcept ((s.workspace.recast μ).setParameters (t.recast μ) parameters) >>=
        fun w => do
          install w
          answerNode hold (t.recast μ)).exec (s.recast μ))
    cases hmade : s.workspace.setParameters t parameters with
    | error x =>
      rw [Workspace.setParameters_recast, hmade]
      exact .error _ hs.fits
    | ok w =>
      have hext := Workspace.extends_setParameters hmade
      have hsound := hs.sound.effect (Workspace.effect_setParameters hs.sound.tidy ht hmade)
      rw [← hs.recast_grow, Workspace.setParameters_recast, hmade, Except.map, exec_ofExcept_bind,
        exec_ofExcept_bind]
      exact agrees_installed hs (hs.fits_of_extends hsound hext) hext Tree.recast_id
        (hext.exists_id ht) hold

/-! ## New nodes -/

/-- A new node is answered, if there is one. -/
theorem agrees_made {x y : Except Error (Tree × Workspace)} (hs : s.workspace.Knows outer e μ)
    (hx : ∀ t w, x = .ok (t, w) → w.Sound ∧ w.forest.Extends (t :: s.forest) ∧
      ∀ u ∈ t.nodes, s.workspace.next ≤ u.id)
    (hy : ∀ μ', s.workspace.recast μ' = s.workspace.recast μ →
      (∀ t w, x = .ok (t, w) → t.recast μ' = t) →
      y = x.map (Prod.map id (Workspace.recast μ'))) (hold : Option String) :
    Agrees outer e SameReply
      ((do
        let (t, w) ← ofExcept x
        install w
        answerNode hold t).exec s)
      ((do
        let (t, w) ← ofExcept y
        install w
        answerNode hold t).exec (s.recast μ)) := by
  cases x with
  | error z =>
    rw [hy μ rfl fun _ _ h => by cases h]
    exact .error _ hs.fits
  | ok made =>
    obtain ⟨t, w⟩ := made
    obtain ⟨hw, hext, hnew⟩ := hx t w rfl
    have hold' := hext.trans (.cons t s.forest)
    rw [hy (μ.grow e w.memories) hs.recast_grow fun t' w' h => by
      obtain ⟨rfl, rfl⟩ := Prod.mk.inj (Except.ok.inj h)
      exact hs.recast_new hw hext hnew, Except.map, exec_ofExcept_bind, exec_ofExcept_bind]
    exact agrees_installed hs (hs.fits_of_extends hw hold') hold' rfl
      (hext.exists_id (Forest.mem_nodes_of_mem (List.mem_cons_self ..))) hold

/-- A node is added alike to a block that is at hand. -/
theorem agrees_addTo (hs : s.workspace.Knows outer e μ) {b b' : Tree}
    (hb : s.workspace.AtHand e b b') (hblock : b.isBlock = true) (content : NodeContent)
    (position : Option Nat) (hold : Option String) :
    Agrees outer e SameReply
      ((do
        let (t, w) ← ofExcept (s.workspace.addChild b content position)
        install w
        answerNode hold t).exec s)
      ((do
        let (t, w) ← ofExcept ((s.recast μ).workspace.addChild b' content position)
        install w
        answerNode hold t).exec (s.recast μ)) := by
  refine agrees_made hs (fun t w hadd => ?_) (fun μ' hμ' hnew => ?_) hold
  · -- the block itself may have been listed in the meantime
    obtain ⟨u, hu, hforget⟩ := hb.alive
    have henabled : s.forest.enabled u = s.forest.enabled b := by
      have htold := hb.told
      rw [Tree.id, ← Tree.core_eq_of_forget_eq hforget, ← Tree.id, hs.told hu] at htold
      exact Option.some.inj htold
    have hublock : u.isBlock = true := by
      rw [← Tree.forget_isBlock, hforget, Tree.forget_isBlock, hblock]
    rw [← Workspace.addChild_congr hforget henabled] at hadd
    exact ⟨hs.sound.effect (Workspace.effect_addChild hu hublock hadd),
      Workspace.extends_addChild hs.sound.tidy hu hublock hadd, Workspace.le_of_addChild hadd⟩
  · have hinside : (s.workspace.recast μ').enabledInside b' = s.workspace.enabledInside b := by
      rw [hμ', Workspace.enabledInside, hs.enabled_recast hb, Workspace.enabledInside]
      obtain ⟨ν, rfl⟩ := hb.eq_recast
      rw [Tree.recast_isActive]
    obtain ⟨ν, rfl⟩ := hb.eq_recast
    rw [Session.recast_workspace, ← hμ']
    exact Workspace.addChild_recast hinside hnew

theorem agrees_add (hs : s.workspace.Knows outer e μ) (target : Target) (content : NodeContent)
    (position : Option Nat) (hold : Option String) :
    AnswersAlike s outer e μ (.add target content position hold) := by
  refine (agrees_resolveBlock hs target).bind fun b b' s μ _ h => ?_
  obtain ⟨⟨rfl, hb, hs, -⟩, hblock⟩ := h
  by_cases hname : (content.name? != some "") = true
  · rw [if_pos hname, if_pos hname, Tree.recast_id]
    refine .list_bind hs [b.id] ?_
    exact agrees_addTo (Session.knows_list hs _) (hs.atHand_list (hs.atHand hb) _) hblock content
      position hold
  · rw [if_neg hname, if_neg hname]
    exact agrees_addTo hs (hs.atHand hb) hblock content position hold

/-- A new tree is made alike. -/
theorem agrees_constructed (hs : s.workspace.Knows outer e μ) {b : Blueprint}
    (hancestor : ∀ id ∈ b.ancestor, ∃ u ∈ Forest.nodes s.forest, u.id = id)
    (content : NodeContent) (standing : Bool) (hold : Option String) :
    Agrees outer e SameReply
      ((do
        let (t, w) ← ofExcept (s.workspace.construct b content standing)
        install w
        answerNode hold t).exec s)
      ((do
        let (t, w) ← ofExcept ((s.recast μ).workspace.construct b content standing)
        install w
        answerNode hold t).exec (s.recast μ)) := by
  refine agrees_made hs (fun t w hmade => ?_) (fun μ' hμ' hnew => ?_) hold
  · exact ⟨hs.sound.effect (Workspace.effect_construct hancestor hmade),
      Workspace.extends_construct hmade, Workspace.le_of_construct hmade⟩
  · rw [Session.recast_workspace, ← hμ']
    exact Workspace.construct_recast hnew

/-- What does not depend on the session is the same in both. -/
theorem agrees_assemble (hs : s.workspace.Knows outer e μ) (spec : DocumentSpec) :
    Agrees outer e (fun a a' s' μ' => a' = a ∧ s'.workspace.Knows outer e μ' ∧
        s' = s) ((assemble spec).exec s)
      ((assemble spec).exec (s.recast μ)) := by
  unfold assemble
  split
  · exact .ok hs.fits ⟨rfl, hs, rfl⟩
  · exact .error _ hs.fits

theorem agrees_readPolicy (hs : s.workspace.Knows outer e μ) (settings : Option String) :
    Agrees outer e (fun a a' s' μ' => a' = a ∧ s'.workspace.Knows outer e μ' ∧ s' = s)
      ((readPolicy settings).exec s) ((readPolicy settings).exec (s.recast μ)) := by
  cases settings with
  | none => exact .ok hs.fits ⟨rfl, hs, rfl⟩
  | some text =>
    change Agrees outer e _ ((ofExcept (Policy.ofJson text)).exec s)
      ((ofExcept (Policy.ofJson text)).exec (s.recast μ))
    cases Policy.ofJson text with
    | error x => exact .error _ hs.fits
    | ok policy => exact .ok hs.fits ⟨rfl, hs, rfl⟩

theorem agrees_openDocument (hs : s.workspace.Knows outer e μ) (spec : DocumentSpec)
    (settings : Option String) (hold : Option String) :
    AnswersAlike s outer e μ (.openDocument spec settings hold) := by
  refine (agrees_assemble hs spec).bind fun document document' s μ _ h => ?_
  obtain ⟨rfl, hs, -⟩ := h
  refine (agrees_readPolicy hs settings).bind fun policy policy' s μ _ h => ?_
  obtain ⟨rfl, hs, -⟩ := h
  exact agrees_constructed hs (by simp) _ _ hold

/-- What may be left out is read alike. -/
theorem agrees_mapM_option {m : α → Step β}
    {Q : Option β → Option β → Session → Memories → Prop} (hs : s.workspace.Knows outer e μ)
    (x : Option α) (hnone : Q none none s μ)
    (hsome : ∀ a ∈ x, Agrees outer e (fun b b' s' μ' => Q (some b) (some b') s' μ')
      ((m a).exec s) ((m a).exec (s.recast μ))) :
    Agrees outer e Q ((x.mapM m).exec s) ((x.mapM m).exec (s.recast μ)) := by
  cases x with
  | none => exact .ok hs.fits hnone
  | some a => exact (hsome a rfl).bind fun b b' s' μ' hfits h => .ok hfits h

theorem agrees_readOrigin (hs : s.workspace.Knows outer e μ) (spec : OriginSpec) :
    Agrees outer e (fun o o' s' μ' => o' = o ∧ s'.workspace.Knows outer e μ' ∧
        ∀ u u', s.workspace.AtHand e u u' → s'.workspace.AtHand e u u')
      ((readOrigin spec).exec s) ((readOrigin spec).exec (s.recast μ)) := by
  cases spec with
  | ofNode target =>
    refine (agrees_resolve hs target).bind fun t t' s' μ' hfits h => ?_
    exact .pure hfits ⟨by rw [h.eq, Tree.recast_core], h.knows, h.later⟩
  | ofDocument spec =>
    refine (agrees_assemble hs spec).bind fun document document' s' μ' hfits h => ?_
    obtain ⟨rfl, hs', rfl⟩ := h
    exact .pure hfits ⟨rfl, hs', fun _ _ h => h⟩

/-- The linkage of a new node is read alike, and the block it refers to is alive. -/
theorem agrees_readBlueprint (hs : s.workspace.Knows outer e μ) (spec : BlueprintSpec) :
    Agrees outer e (fun b b' s' μ' => b' = b ∧ s'.workspace.Knows outer e μ' ∧
        ∀ id ∈ b.ancestor, ∃ u ∈ Forest.nodes s'.forest, u.id = id)
      ((readBlueprint spec).exec s) ((readBlueprint spec).exec (s.recast μ)) := by
  refine (agrees_mapM_option (Q := fun t t' s' μ' => t'.map Tree.id = t.map Tree.id ∧
    s'.workspace.Knows outer e μ' ∧ ∀ u ∈ t, ∃ u', s'.workspace.AtHand e u u') hs spec.ancestor
    ⟨rfl, hs, by simp⟩ fun target _ => ?_).bind fun t t' s μ _ h => ?_
  · refine (agrees_resolveBlock hs target).mono fun t t' s μ h => ?_
    obtain ⟨⟨rfl, ht, hs, -⟩, -⟩ := h
    exact ⟨congrArg some Tree.recast_id, hs, by simpa using ⟨_, hs.atHand ht⟩⟩
  obtain ⟨hid, hs, ht⟩ := h
  refine (agrees_mapM_option (Q := fun o o' s' μ' => o' = o ∧ s'.workspace.Knows outer e μ' ∧
    ∀ u ∈ t, ∃ u', s'.workspace.AtHand e u u') hs spec.origin ⟨rfl, hs, ht⟩
    fun origin _ => ?_).bind fun o o' s μ _ h => ?_
  · refine (agrees_readOrigin hs origin).mono fun o o' s μ h => ?_
    refine ⟨congrArg some h.1, h.2.1, fun u hu => ?_⟩
    obtain ⟨u', hu'⟩ := ht u hu
    exact ⟨u', h.2.2 u u' hu'⟩
  obtain ⟨rfl, hs, ht⟩ := h
  refine (agrees_mapM_option (Q := fun p p' s' μ' => p' = p ∧ s'.workspace.Knows outer e μ' ∧
    s' = s) hs spec.settings ⟨rfl, hs, rfl⟩ fun text _ => ?_).bind fun p p' s μ hfits h => ?_
  · refine (agrees_readPolicy hs (some text)).mono fun p p' s μ h => ?_
    exact ⟨congrArg some h.1, h.2⟩
  obtain ⟨rfl, hs', rfl⟩ := h
  refine .pure hfits ⟨by rw [hid], hs', fun id hlink => ?_⟩
  obtain ⟨u, hu, rfl⟩ := Option.map_eq_some_iff.1 hlink
  obtain ⟨u', hu'⟩ := ht u hu
  obtain ⟨v, hv, hcore⟩ := hu'.exists_core
  exact ⟨v, hv, congrArg Core.id hcore⟩

theorem agrees_construct (hs : s.workspace.Knows outer e μ) (spec : BlueprintSpec)
    (content : NodeContent) (standing : Bool) (hold : Option String) :
    AnswersAlike s outer e μ (.construct spec content standing hold) := by
  refine (agrees_readBlueprint hs spec).bind fun b b' s μ _ h => ?_
  obtain ⟨rfl, hs, hancestor⟩ := h
  exact agrees_constructed hs hancestor content standing hold

/-! ## All actions -/

/-- No action tells its caller of memories that fit. -/
theorem agrees_perform (hs : s.workspace.Knows outer e μ) (action : Action) :
    AnswersAlike s outer e μ action := by
  cases action with
  | openDocument spec settings hold => exact agrees_openDocument hs spec settings hold
  | construct spec content standing hold => exact agrees_construct hs spec content standing hold
  | get target hold => exact agrees_get hs target hold
  | dump target => exact agrees_dump hs target
  | children target hold => exact agrees_children hs target hold
  | ancestor target hold => exact agrees_ancestor hs target hold
  | root target hold => exact agrees_root hs target hold
  | origin target => exact agrees_origin hs target
  | policy target => exact agrees_policy hs target
  | findAncestors target name hold => exact agrees_findAncestors hs target name hold
  | findBlocks target name exclude hold =>
    exact agrees_search hs target hold (fun t => t.listed exclude)
      (fun t => t.findBlocks name exclude)
      (fun _ _ => Tree.listed_recast exclude) (fun _ _ => Tree.findBlocks_recast name exclude)
      fun t => List.filter_sublist.trans (t.descendants_sublist exclude)
  | findDirectives target name exclude hold =>
    exact agrees_search hs target hold (fun t => t.listed exclude)
      (fun t => t.findDirectives name exclude)
      (fun _ _ => Tree.listed_recast exclude) (fun _ _ => Tree.findDirectives_recast name exclude)
      fun t => List.filter_sublist.trans (t.descendants_sublist exclude)
  | findComments target text exact hold =>
    exact agrees_search hs target hold (fun t => t.listed false)
      (fun t => t.findComments text exact)
      (fun _ _ => Tree.listed_recast false) (fun _ _ => Tree.findComments_recast text exact)
      fun t => List.filter_sublist.trans (t.descendants_sublist false)
  | add target content position hold => exact agrees_add hs target content position hold
  | delete target child => exact agrees_delete hs target child
  | setParameters target parameters hold => exact agrees_setParameters hs target parameters hold
  | compare a b => exact agrees_compare hs a b
  | render targets => exact agrees_render hs targets
  | unsaved target => exact agrees_unsaved hs target
  | save target message => exact agrees_save hs target message
  | checkpoints target => exact agrees_checkpoints hs target
  | markClean target => exact agrees_markClean hs target
  | write target writer => exact agrees_write hs target writer
  | written path => exact agrees_written hs path
  | drop names => exact agrees_drop hs names

end Step

end HttpdConf
