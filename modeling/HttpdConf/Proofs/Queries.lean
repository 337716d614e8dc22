import HttpdConf.Proofs.Actions

/-!
# Queries

A query asks something of a session and keeps nothing of the answer. All that it leaves behind are
children of blocks that have been listed, and these remember from then on whether they are in force.
A node goes by what it remembers once all blocks around it are gone. So answers can tell whether
there was a query before the condition of one of these blocks changed, if nobody else had listed the
node by then. This is the only way: in a run whose actions leave alone whether nodes are in force
that have not been listed yet and that lose all blocks around them at some time, no answer depends
on what was asked in between.

## Main definitions

* `Action.isQuery`: whether an action only asks
* `Session.replies`: what is answered in a run, with queries in between that nobody looks at
* `Session.everOutermost`: the nodes that have no live block around them at some time of a run
* `Session.RunsSteady`: if such nodes have not been listed, they are in force as before after every
  action

## Main results

* `Step.lists_perform`: a query does nothing but list
* `Session.replies_queries`: queries cannot be told from answers in a steady run
-/

namespace HttpdConf

variable {outer : List NodeId} {μ e : Memories} {held : List NodeId} {t : Tree} {f : Forest}
  {s s' s'' : Session} {α β : Type}

/-- Whether an action only asks, and does not hold what is answered. -/
def Action.isQuery : Action → Bool
  | .get _ hold => hold.isNone
  | .dump _ => true
  | .children _ hold => hold.isNone
  | .ancestor _ hold => hold.isNone
  | .root _ hold => hold.isNone
  | .origin _ => true
  | .policy _ => true
  | .findAncestors _ _ hold => hold.isNone
  | .findBlocks _ _ _ hold => hold.isNone
  | .findDirectives _ _ _ hold => hold.isNone
  | .findComments _ _ _ hold => hold.isNone
  | .compare _ _ => true
  | .render _ => true
  | .unsaved _ => true
  | .checkpoints _ => true
  | .written _ => true
  | _ => false

/-! ## Queries list -/

/-- A session comes from another by listing the children of blocks. -/
inductive Session.ListsTo (s : Session) : Session → Prop
  | refl : ListsTo s s
  | list {later : Session} (h : ListsTo s later) (blocks : List NodeId) :
      ListsTo s (later.list blocks)

theorem Session.ListsTo.trans (h : s.ListsTo s') (h' : s'.ListsTo s'') : s.ListsTo s'' := by
  induction h' with
  | refl => exact h
  | list _ blocks ih => exact ih.list blocks

/-- Listing leaves a session as it is but for what nodes remember. -/
theorem Session.exists_recast_of_listsTo (hs : s.workspace.Knows outer e μ)
    (h : (s.recast μ).ListsTo s') :
    ∃ μ', s' = s.recast μ' ∧ s.workspace.Knows outer e μ' := by
  induction h with
  | refl => exact ⟨μ, rfl, hs⟩
  | list _ blocks ih =>
    obtain ⟨μ, rfl, hs⟩ := ih
    exact ⟨_, recast_list_eq hs blocks, hs.after _⟩

namespace Step

/-- A part of an action that does nothing but list. -/
def Lists (m : Step α) : Prop := ∀ s : Session, s.ListsTo (m.exec s).2

namespace Lists

theorem pure (a : α) : Lists (Pure.pure a) := fun _ => .refl

theorem throw (x : ActionFault) : Lists (MonadExcept.throw x : Step α) := fun _ => .refl

theorem get : Lists (MonadState.get : Step Session) := fun _ => .refl

theorem list (blocks : List NodeId) : Lists (Step.list blocks) := fun _ => .list .refl blocks

theorem refresh (t : Tree) : Lists (Step.refresh t) := fun _ => .refl

theorem bind {m : Step α} {k : α → Step β} (hm : Lists m) (hk : ∀ a, Lists (k a)) :
    Lists (m >>= k) := by
  intro s
  have hfirst := hm s
  rw [exec_bind]
  generalize m.exec s = out at hfirst
  obtain ⟨x | a, s'⟩ := out
  · exact hfirst
  · exact hfirst.trans (hk a s')

theorem mapM {m : α → Step β} (hm : ∀ a, Lists (m a)) (as : List α) : Lists (as.mapM m) := by
  induction as with
  | nil => exact .pure []
  | cons a as ih =>
    rw [List.mapM_cons]
    exact (hm a).bind fun b => ih.bind fun bs => .pure (b :: bs)

theorem resolve (target : Target) : Lists (Step.resolve target) := by
  refine Lists.get.bind fun s => ?_
  split
  · exact .throw _
  · refine (Lists.list _).bind fun _ => ?_
    split
    · exact .throw _
    · exact .refresh _

theorem resolveBlock (target : Target) : Lists (Step.resolveBlock target) := by
  refine (Lists.resolve target).bind fun t => ?_
  split
  · exact .pure t
  · exact .throw _

theorem answerNode (t : Tree) : Lists (Step.answerNode none t) :=
  (Lists.refresh t).bind fun _ => Lists.get.bind fun _ => .pure _

theorem answerNodes (ts : List Tree) : Lists (Step.answerNodes none ts) :=
  (Lists.mapM Lists.refresh ts).bind fun _ => Lists.get.bind fun _ => .pure _

end Lists

/-- A query does nothing but list. -/
theorem lists_perform {q : Action} (hq : q.isQuery = true) : Lists (perform q) := by
  have hnone : ∀ {hold : Option String}, hold.isNone = true → hold = none :=
    fun h => Option.isNone_iff_eq_none.1 h
  cases q with
  | get target hold =>
    obtain rfl := hnone hq
    exact (Lists.resolve target).bind Lists.answerNode
  | dump target =>
    exact (Lists.resolve target).bind fun t => (Lists.list _).bind fun _ =>
      Lists.get.bind fun _ => (Lists.refresh t).bind fun _ => .pure _
  | children target hold =>
    obtain rfl := hnone hq
    exact (Lists.resolveBlock target).bind fun t => (Lists.list _).bind fun _ => .answerNodes _
  | ancestor target hold =>
    obtain rfl := hnone hq
    refine (Lists.resolve target).bind fun t => Lists.get.bind fun s => ?_
    split
    · exact .answerNode _
    · exact .pure _
  | root target hold =>
    obtain rfl := hnone hq
    exact (Lists.resolveBlock target).bind fun t => Lists.get.bind fun _ => .answerNode _
  | origin target => exact (Lists.resolve target).bind fun _ => .pure _
  | policy target => exact (Lists.resolveBlock target).bind fun _ => .pure _
  | findAncestors target name hold =>
    obtain rfl := hnone hq
    exact (Lists.resolve target).bind fun t => Lists.get.bind fun _ => .answerNodes _
  | findBlocks target name exclude hold =>
    obtain rfl := hnone hq
    exact (Lists.resolveBlock target).bind fun t => (Lists.list _).bind fun _ => .answerNodes _
  | findDirectives target name exclude hold =>
    obtain rfl := hnone hq
    exact (Lists.resolveBlock target).bind fun t => (Lists.list _).bind fun _ => .answerNodes _
  | findComments target text exact hold =>
    obtain rfl := hnone hq
    exact (Lists.resolveBlock target).bind fun t => (Lists.list _).bind fun _ => .answerNodes _
  | compare a b =>
    exact (Lists.resolve a).bind fun _ => (Lists.resolve b).bind fun _ =>
      Lists.get.bind fun _ => (Lists.list _).bind fun _ => .pure _
  | render targets =>
    exact (Lists.mapM Lists.resolve targets).bind fun _ => (Lists.list _).bind fun _ =>
      Lists.get.bind fun _ => .pure _
  | unsaved target =>
    exact (Lists.resolveBlock target).bind fun _ => (Lists.list _).bind fun _ => .pure _
  | checkpoints target =>
    exact (Lists.resolveBlock target).bind fun _ => Lists.get.bind fun _ => .pure _
  | written path => exact Lists.get.bind fun _ => .pure _
  | _ => cases hq

end Step

/-! ## What stays alive -/

mutual
theorem Tree.contains_of_mem_sweep (t : Tree) : ∀ u ∈ t.sweep held, held.contains u.id = true := by
  match t with
  | .comment core text =>
    rw [Tree.sweep]
    split
    · rename_i h
      simpa [Tree.id, Tree.core] using h
    · simp
  | .directive core statement =>
    rw [Tree.sweep]
    split
    · rename_i h
      simpa [Tree.id, Tree.core] using h
    · simp
  | .block core statement children =>
    rw [Tree.sweep]
    split
    · rename_i h
      simpa [Tree.id, Tree.core] using h
    · exact Forest.contains_of_mem_sweep children

/-- What is left are trees that are held. -/
theorem Forest.contains_of_mem_sweep (f : Forest) :
    ∀ u ∈ f.sweep held, held.contains u.id = true := by
  match f with
  | [] => simp [Forest.sweep]
  | t :: f =>
    rw [Forest.sweep]
    intro u hu
    rcases List.mem_append.1 hu with hu | hu
    · exact Tree.contains_of_mem_sweep t u hu
    · exact Forest.contains_of_mem_sweep f u hu
end

/-- Trees that are held stay. -/
theorem Forest.sweep_of_contains (h : ∀ t ∈ f, held.contains t.id = true) : f.sweep held = f := by
  induction f with
  | nil => rfl
  | cons t f ih =>
    have hself : t.sweep held = [t] := by
      have ht := h t (List.mem_cons_self ..)
      cases t with
      | comment core text => exact if_pos ht
      | directive core statement => exact if_pos ht
      | block core statement children => exact if_pos ht
    rw [Forest.sweep, hself, ih fun u hu => h u (List.mem_cons_of_mem _ hu), List.singleton_append]

namespace Session

theorem sweep_sweep (s : Session) : s.sweep.sweep = s.sweep :=
  congrArg (fun f => { s with workspace := { s.workspace with forest := f } })
    (Forest.sweep_of_contains (Forest.contains_of_mem_sweep s.forest))

theorem recast_sweep (s : Session) : (s.recast μ).sweep = s.sweep.recast μ :=
  congrArg (fun w : Workspace => { s with workspace := w })
    (Workspace.sweep_mapStatements (s.handles.map Prod.snd))

theorem fits_sweep (h : s.workspace.Fits outer e μ) : s.sweep.workspace.Fits outer e μ :=
  h.of_remembers (h.sound.effect (.sweep _)) fun _ hν t ht =>
    hν t ((Forest.nodes_sweep _ _).subset ht)

/-- What becomes of the result of an action. -/
def conclude (out : Except ActionFault Answer × Session) : Answer × Session :=
  (match out.1 with
    | .ok answer => answer
    | .error fault => .failed fault, out.2.sweep)

theorem perform_eq (s : Session) (a : Action) :
    s.perform a = conclude ((Step.perform a).exec s) := by
  have hsplit : ∀ out : Except ActionFault Answer × Session,
      (let (result, s) := out;
        match result with
        | .ok answer => (answer, s.sweep)
        | .error fault => (.failed fault, s.sweep)) = conclude out := by
    rintro ⟨x | answer, s'⟩ <;> rfl
  exact hsplit _

theorem sweep_perform (s : Session) (a : Action) : (s.perform a).2.sweep = (s.perform a).2 := by
  rw [perform_eq]
  exact sweep_sweep _

/-! ## One action -/

/-- What is answered does not depend on memories that fit, and the next session does so only by
memories that fit. -/
theorem exists_perform_recast (hs : s.workspace.Knows outer e μ) (a : Action) :
    ∃ μ', ((s.recast μ).perform a).1.reply = (s.perform a).1.reply ∧
      ((s.recast μ).perform a).2 = (s.perform a).2.recast μ' ∧
      (s.perform a).2.workspace.Fits outer e μ' := by
  have hagrees := Step.agrees_perform hs a
  rw [Step.AnswersAlike] at hagrees
  rw [perform_eq, perform_eq]
  generalize (Step.perform a).exec s = out at hagrees
  generalize (Step.perform a).exec (s.recast μ) = out' at hagrees
  cases hagrees with
  | ok hfits h => exact ⟨_, h.symm, recast_sweep _, fits_sweep hfits⟩
  | error x hfits => exact ⟨_, rfl, recast_sweep _, fits_sweep hfits⟩

/-- A query adds to what nodes remember. -/
theorem exists_query_recast (hs : s.workspace.Knows outer e μ) (hswept : s.sweep = s) {q : Action}
    (hq : q.isQuery = true) :
    ∃ μ', ((s.recast μ).perform q).2 = s.recast μ' ∧ s.workspace.Knows outer e μ' := by
  obtain ⟨μ', hlist, hs'⟩ := exists_recast_of_listsTo hs (Step.lists_perform hq (s.recast μ))
  refine ⟨μ', ?_, hs'⟩
  rw [perform_eq, conclude, hlist, recast_sweep, hswept]

theorem exists_queries_recast (hs : s.workspace.Knows outer e μ) (hswept : s.sweep = s)
    {queries : List Action} (hq : ∀ q ∈ queries, q.isQuery = true) :
    ∃ μ', queries.foldl (fun s q => (s.perform q).2) (s.recast μ) = s.recast μ' ∧
      s.workspace.Knows outer e μ' := by
  induction queries generalizing μ with
  | nil => exact ⟨μ, rfl, hs⟩
  | cons q queries ih =>
    obtain ⟨μ', hquery, hs'⟩ := exists_query_recast hs hswept (hq q (List.mem_cons_self ..))
    rw [List.foldl_cons, hquery]
    exact ih hs' fun q' hq' => hq q' (List.mem_cons_of_mem _ hq')

/-! ## Steady runs -/

/-- The nodes without a live block around them. -/
def outermost (s : Session) : List NodeId :=
  ((Forest.nodes s.forest).filter fun t => (s.forest.ancestor? t.core).isNone).map Tree.id

/-- The nodes that have no live block around them at some time of a run. -/
def everOutermost : Session → List Action → List NodeId
  | s, [] => s.outermost
  | s, a :: actions => s.outermost ++ (s.perform a).2.everOutermost actions

/-- After the action, those of some nodes that have not been listed are in force if they were
before. -/
def IsSteady (s : Session) (outer : List NodeId) (a : Action) : Prop :=
  ∀ t ∈ Forest.nodes (s.perform a).2.forest, t.id ∈ outer →
    t.statement?.any (·.standing.isNone) = true → ∀ u ∈ Forest.nodes s.forest, u.id = t.id →
      (s.perform a).2.forest.enabled t = s.forest.enabled u

instance (s : Session) (outer : List NodeId) (a : Action) : Decidable (s.IsSteady outer a) :=
  inferInstanceAs (Decidable (∀ t ∈ Forest.nodes (s.perform a).2.forest, _ → _))

/-- All actions of a run are steady. -/
def RunsSteady : Session → List NodeId → List Action → Prop
  | _, _, [] => True
  | s, outer, a :: actions => s.IsSteady outer a ∧ (s.perform a).2.RunsSteady outer actions

instance RunsSteady.decidable : (s : Session) → (outer : List NodeId) → (actions : List Action) →
    Decidable (s.RunsSteady outer actions)
  | _, _, [] => .isTrue trivial
  | s, outer, a :: actions =>
    have := RunsSteady.decidable (s.perform a).2 outer actions
    inferInstanceAs (Decidable (s.IsSteady outer a ∧ (s.perform a).2.RunsSteady outer actions))

theorem mem_outermost (ht : t ∈ Forest.nodes s.forest) (hlink : s.forest.ancestor? t.core = none) :
    t.id ∈ s.outermost :=
  List.mem_map_of_mem (List.mem_filter.2 ⟨ht, by rw [hlink]; rfl⟩)

/-- After a steady action, memories that fitted before fit what is true then. -/
theorem exists_knows_of_steady {a : Action} (hsteady : s.IsSteady outer a)
    (hfits : (s.perform a).2.workspace.Fits outer s.workspace.told μ)
    (houter : ∀ id ∈ (s.perform a).2.outermost, id ∈ outer) :
    ∃ μ', (s.perform a).2.recast μ = (s.perform a).2.recast μ' ∧
      (s.perform a).2.workspace.Knows outer (s.perform a).2.workspace.told μ' := by
  unfold IsSteady at hsteady
  generalize (s.perform a).2 = s' at hsteady hfits houter
  obtain ⟨ν, hν, hfit⟩ := hfits.memories
  have hfind : ∀ t ∈ Forest.nodes s'.forest, s'.forest.find? t.id = some t := fun t ht =>
    hfits.sound.tidy.find?_eq ht
  -- of what is no live statement, memories are put aside
  refine ⟨fun id => if ((s'.forest.find? id).bind Tree.statement?).isSome then μ id else ν id,
    congrArg (fun w : Workspace => { s' with workspace := w })
      (Workspace.recast_congr fun t ht st hst => ?_),
    ⟨hfits.sound, ν, hν, fun id hid => ?_⟩, rfl, fun t ht hlink =>
      houter _ (mem_outermost ht hlink)⟩
  · have hlive : ((s'.forest.find? t.id).bind Tree.statement?).isSome = true := by
      rw [hfind t ht, Option.bind_some, Option.mem_def.1 hst, Option.isSome_some]
    exact (if_pos hlive).symm
  · cases hst : (s'.forest.find? id).bind Tree.statement? with
    | none => exact .inl (by simp [hst])
    | some st =>
      obtain ⟨t, hfound, hstatement⟩ := Option.bind_eq_some_iff.1 hst
      obtain ⟨ht, rfl⟩ := Forest.mem_nodes_of_find? hfound
      have htold : s'.workspace.told t.id = some (s'.forest.enabled t) := hfits.sound.told_eq ht
      have hmem : t.id ∈ outer := hid.resolve_right (by rw [htold]; simp)
      simp only [Memories.FitAt, hst, Option.isSome_some, if_true, htold]
      rcases hfit t.id (.inl hmem) with h | ⟨hnone, h⟩
      · exact .inl h
      · cases hbefore : s.workspace.told t.id with
        | none => exact .inl (by rw [h, hbefore, hnone])
        | some inForce =>
          -- the node has not been listed, so it is in force as before
          obtain ⟨u, hu, huid, rfl⟩ := Workspace.exists_of_told hbefore
          have hunlisted : t.statement?.any (·.standing.isNone) = true := by
            rw [hstatement, Option.any_some, hν t ht st hstatement, hnone]
            rfl
          refine .inr ⟨hnone, ?_⟩
          rw [h, hbefore, hsteady t ht hmem hunlisted u hu huid]
          rfl

/-! ## Runs -/

/-- What is answered to the actions of a run. Before each of them there are queries, whose answers
nobody looks at. -/
def replies : Session → List (List Action × Action) → List Reply
  | _, [] => []
  | s, (queries, a) :: script =>
    let s := queries.foldl (fun s q => (s.perform q).2) s
    (s.perform a).1.reply :: (s.perform a).2.replies script

/-- Whatever has been listed, the answers are those of the run without queries. -/
theorem replies_recast (hs : s.workspace.Knows outer s.workspace.told μ) (hswept : s.sweep = s)
    {script : List (List Action × Action)} (hqueries : ∀ x ∈ script, ∀ q ∈ x.1, q.isQuery = true)
    (houter : ∀ id ∈ s.everOutermost (script.map Prod.snd), id ∈ outer)
    (hsteady : s.RunsSteady outer (script.map Prod.snd)) :
    (s.recast μ).replies script = s.replies (script.map fun x => ([], x.2)) := by
  induction script generalizing s μ with
  | nil => rfl
  | cons x script ih =>
    obtain ⟨queries, a⟩ := x
    obtain ⟨hfirst, hrest⟩ := hsteady
    have hlater : ∀ id ∈ (s.perform a).2.everOutermost (script.map Prod.snd), id ∈ outer :=
      fun id hid => houter id (List.mem_append_right _ hid)
    have hnext : ∀ id ∈ (s.perform a).2.outermost, id ∈ outer := fun id hid =>
      hlater id (by cases script <;> [exact hid; exact List.mem_append_left _ hid])
    obtain ⟨μ₁, hfold, hs₁⟩ :=
      exists_queries_recast hs hswept (hqueries _ (List.mem_cons_self ..))
    obtain ⟨μ₂, hreply, hperform, hfits⟩ := exists_perform_recast hs₁ a
    obtain ⟨μ₃, hrecast, hs₃⟩ := exists_knows_of_steady hfirst hfits hnext
    rw [Session.replies, hfold, List.map_cons, Session.replies]
    simp only [List.foldl_nil, hreply, hperform, hrecast]
    exact congrArg _ (ih hs₃ (sweep_perform s a)
      (fun y hy => hqueries y (List.mem_cons_of_mem _ hy)) hlater hrest)

/-- In a steady run, no answer depends on the queries that are put in between. -/
theorem replies_queries {script : List (List Action × Action)}
    (hqueries : ∀ x ∈ script, ∀ q ∈ x.1, q.isQuery = true)
    (hsteady : start.RunsSteady (start.everOutermost (script.map Prod.snd))
      (script.map Prod.snd)) :
    start.replies script = start.replies (script.map fun x => ([], x.2)) := by
  have hnone : ∀ t, t ∉ Forest.nodes start.workspace.forest := fun t ht => by
    simp [start, Workspace.empty] at ht
  have hstart : start.workspace.Knows (start.everOutermost (script.map Prod.snd))
      start.workspace.told fun _ => none :=
    ⟨⟨Workspace.Sound.empty, fun _ => none, fun t ht => absurd ht (hnone t), fun _ _ => .inl rfl⟩,
      rfl, fun t ht => absurd ht (hnone t)⟩
  exact replies_recast hstart rfl hqueries (fun _ h => h) hsteady

/-- The conditions of two blocks change, of one after and of the other before what is inside it was
listed. Then the first one ends. -/
theorem replies_queries_listed :
    ∃ script : List (List Action × Action),
      script = [
        ([], .openDocument (.file ⟨⟨"site.conf"⟩,
            "<IfDefine X>\nL 1\n</IfDefine>\n<IfDefine X>\nM 1\n</IfDefine>\n"⟩ [])
          (some "\x7b\"activation\":\x7b\"defines\":[\"X\"]\x7d\x7d") (some "r")),
        ([.findDirectives (.ofText "r") "L" true none], .children (.ofText "r/0") (some "c")),
        ([.render [.ofText "r"]], .setParameters (.ofText "r/0") ["Y"] none),
        ([], .get (.ofText "r/1") (some "b")),
        ([.children (.ofText "b") none], .setParameters (.ofText "b") ["Y"] none),
        ([.unsaved (.ofText "r")], .drop ["r"]),
        ([.findAncestors (.ofText "c0") "IfDefine" none], .get (.ofText "c0") none),
        ([], .get (.ofText "b/0") none)] ∧
      start.replies script = start.replies (script.map fun x => ([], x.2)) ∧
      (start.replies script).map Reply.flags =
        [[true], [true], [true], [true], [true], [], [true], [false]] := by
  refine ⟨_, rfl, replies_queries (by decide +kernel) (by decide +kernel), by decide +kernel⟩

/-- The condition of a block changes, and what is inside it goes on without it. Whether it was in
force shows if somebody listed it before the change, and else not. -/
theorem replies_queries_unlisted :
    ∃ script : List (List Action × Action),
      script = [
        ([], .openDocument (.file ⟨⟨"site.conf"⟩, "<IfDefine X>\nL 1\n</IfDefine>\n"⟩ [])
          (some "\x7b\"activation\":\x7b\"defines\":[\"X\"]\x7d\x7d") (some "r")),
        ([], .get (.ofText "r/0") (some "b")),
        ([.children (.ofText "b") none], .setParameters (.ofText "b") ["Y"] none),
        ([], .children (.ofText "b") (some "c")),
        ([], .drop ["r", "b"]),
        ([], .get (.ofText "c0") none)] ∧
      (∀ x ∈ script, ∀ q ∈ x.1, q.isQuery = true) ∧
      (start.replies script).map Reply.flags = [[true], [true], [true], [false], [], [true]] ∧
      (start.replies (script.map fun x => ([], x.2))).map Reply.flags =
        [[true], [true], [true], [false], [], [false]] ∧
      start.replies script ≠ start.replies (script.map fun x => ([], x.2)) :=
  ⟨_, rfl, by decide +kernel, by decide +kernel, by decide +kernel, fun h =>
    absurd (congrArg (List.map Reply.flags) h) (by decide +kernel)⟩

end Session

end HttpdConf
