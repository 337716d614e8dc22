import HttpdConf.Proofs.Queries

/-!
# Refused calls

A call changes one node: something is added to it or taken out of it, or it gets other parameters.
Whether a call is refused can be told beforehand, from the node and what the call says. All that a
refused call may have done by then is to list children, as queries do. So it is like a query whose
answer is the error: the trees stay as they are, and the questions that follow, and the first action
after them, have the answers that they would have had.

## Main definitions

* `Session.run`: a session after some actions
* `Session.isCall`: whether an action is a call, of a node that can take it
* `Session.Refuses`: why a call is refused
* `Session.SeemsAs`: two sessions that look the same

## Main results

* `Step.ends_call`: a call is refused for a reason that was there before, or it succeeds
* `Session.refuses_run`: the same for whole actions, after any others
-/

namespace HttpdConf

variable {outer : List NodeId} {μ μ' e : Memories} {t b : Tree} {s s' : Session} {w : Workspace}
  {x : Error} {target child : Target} {α β : Type}

/-! ## Calls -/

namespace Session

/-- The session after some actions. -/
def run (s : Session) (actions : List Action) : Session :=
  actions.foldl (fun s a => (s.perform a).2) s

/-- Whether an action is a call, of a node that can take it. -/
def isCall (s : Session) : Action → Bool
  | .add target _ _ _ => (s.node? target).any Tree.isBlock
  | .delete target child => (s.node? target).any Tree.isBlock && (s.node? child).isSome
  | .setParameters target _ _ => (s.node? target).any fun t => t.statement?.isSome
  | _ => false

/-- Why a call is refused. Names come before positions. A child is known by its number, not by what
it says. -/
inductive Refuses (s : Session) : Action → Error → Prop
  | noName {target : Target} {content : NodeContent} {position : Option Nat} {hold : Option String}
      (hname : content.name? = some "") : Refuses s (.add target content position hold) .emptyName
  | noPlace {target : Target} {content : NodeContent} {index : Nat} {hold : Option String}
      {b : Tree} (hb : s.node? target = some b) (hname : content.name? ≠ some "")
      (hindex : b.children.length < index) :
      Refuses s (.add target content (some index) hold) (.indexOutOfRange index b.children.length)
  | noChild {target child : Target} {b c : Tree} (hb : s.node? target = some b)
      (hc : s.node? child = some c) (hchild : ∀ u ∈ b.children, u.id ≠ c.id) :
      Refuses s (.delete target child) .notFound
  | unnamed {target : Target} {parameters : List String} {hold : Option String} {t : Tree}
      (ht : s.node? target = some t) (hname : t.name = "") :
      Refuses s (.setParameters target parameters hold) .emptyName

/-- Two sessions that look the same. Their trees have the same nodes with the same flags, names and
parameters, in the same order. Whatever is asked, and the first action after that, has the same
answer. -/
structure SeemsAs (s' s : Session) : Prop where
  handles_eq : s'.handles = s.handles
  store_eq : s'.store = s.store
  next_eq : s'.workspace.next = s.workspace.next
  journal_eq : s'.workspace.journal = s.workspace.journal
  forest_eq : s'.forest.map Tree.forget = s.forest.map Tree.forget
  replies_eq : ∀ queries : List Action, (∀ q ∈ queries, q.isQuery = true) → ∀ a,
    s'.replies [(queries, a)] = s.replies [(queries, a)]

end Session

/-- The error of trees that an answer tells of. -/
def Answer.error? : Answer → Option Error
  | .failed (.tree x) => some x
  | _ => none

theorem Answer.eq_failed_of_error? {answer : Answer} (h : answer.error? = some x) :
    answer = .failed (.tree x) := by
  unfold Answer.error? at h
  split at h
  · rw [Option.some.inj h]
  · cases h

/-! ## Reasons -/

namespace Workspace

theorem addChild_eq_error_iff {content : NodeContent} {position : Option Nat} :
    w.addChild b content position = .error x ↔
      content.name? = some "" ∧ x = .emptyName ∨
        content.name? ≠ some "" ∧ ∃ index ∈ position, b.children.length < index ∧
          x = .indexOutOfRange index b.children.length := by
  rw [addChild]
  by_cases hname : content.name? = some ""
  · simp [hname, @eq_comm _ x]
  · cases position with
    | none => simp [hname]
    | some index =>
      by_cases hindex : b.children.length < index <;> simp [hname, hindex, @eq_comm _ x]

theorem deleteChild_eq_error_iff {id : NodeId} :
    w.deleteChild b id = .error x ↔ (∀ u ∈ b.children, u.id ≠ id) ∧ x = .notFound := by
  rw [deleteChild]
  cases hfind : List.find? (fun u => u.id == id) b.children with
  | none =>
    have hnone : ∀ u ∈ b.children, u.id ≠ id := by simpa using hfind
    simpa [@eq_comm _ x] using fun _ => hnone
  | some u =>
    obtain ⟨hu, hid⟩ := Tree.mem_of_find?_id hfind
    simpa using fun h => absurd hid (h u hu)

theorem setParameters_eq_error_iff {parameters : List String} :
    w.setParameters t parameters = .error x ↔ t.name = "" ∧ x = .emptyName := by
  rw [setParameters]
  by_cases hname : t.name = "" <;> simp [hname, @eq_comm _ x]

end Workspace

namespace Session

theorem refuses_add_iff {content : NodeContent} {position : Option Nat} {hold : Option String}
    (hb : s.node? target = some b) :
    s.Refuses (.add target content position hold) x ↔
      w.addChild (b.recast μ) content position = .error x := by
  rw [Workspace.addChild_eq_error_iff, Tree.recast_children, List.length_map]
  constructor
  · intro h
    cases h with
    | noName hname => exact .inl ⟨hname, rfl⟩
    | noPlace hb' hname hindex =>
      obtain rfl := Option.some.inj (hb'.symm.trans hb)
      exact .inr ⟨hname, _, rfl, hindex, rfl⟩
  · rintro (⟨hname, rfl⟩ | ⟨hname, index, rfl, hindex, rfl⟩)
    · exact .noName hname
    · exact .noPlace hb hname hindex

theorem refuses_delete_iff {c : Tree} (hb : s.node? target = some b)
    (hc : s.node? child = some c) :
    s.Refuses (.delete target child) x ↔ w.deleteChild (b.recast μ) c.id = .error x := by
  rw [Workspace.deleteChild_eq_error_iff, Tree.recast_children, List.forall_mem_map]
  simp only [Tree.recast_id]
  constructor
  · intro h
    cases h with
    | noChild hb' hc' hchild =>
      obtain rfl := Option.some.inj (hb'.symm.trans hb)
      obtain rfl := Option.some.inj (hc'.symm.trans hc)
      exact ⟨hchild, rfl⟩
  · rintro ⟨hchild, rfl⟩
    exact .noChild hb hc hchild

theorem refuses_setParameters_iff {parameters : List String} {hold : Option String}
    (ht : s.node? target = some t) :
    s.Refuses (.setParameters target parameters hold) x ↔
      w.setParameters (t.recast μ) parameters = .error x := by
  rw [Workspace.setParameters_eq_error_iff, Tree.recast_name]
  constructor
  · intro h
    cases h with
    | unnamed ht' hname =>
      obtain rfl := Option.some.inj (ht'.symm.trans ht)
      exact ⟨hname, rfl⟩
  · rintro ⟨hname, rfl⟩
    exact .unnamed ht hname

end Session

/-! ## What a call goes through -/

namespace Step

theorem exec_bind_of_ok {m : Step α} {k : α → Step β} {y : α} (hm : m.exec s = (.ok y, s')) :
    (m >>= k).exec s = (k y).exec s' := by
  rw [exec_bind, hm]

theorem exec_list_recast (hs : s.workspace.Knows outer e μ) (blocks : List NodeId) :
    ∃ μ', (list blocks).exec (s.recast μ) = (.ok (), s.recast μ') ∧
      s.workspace.Knows outer e μ' :=
  ⟨_, congrArg (Prod.mk (Except.ok ())) (Session.recast_list_eq hs blocks), hs.after _⟩

theorem exec_refresh_recast (hs : s.workspace.Knows outer e μ') (ht : t ∈ Forest.nodes s.forest) :
    (refresh (t.recast μ)).exec (s.recast μ') = (.ok (t.recast μ'), s.recast μ') := by
  have hfind : s.forest.find? t.id = some t := hs.sound.tidy.find?_eq ht
  rw [exec_refresh, Session.recast_forest, Tree.recast_id, Forest.find?_recast, hfind,
    Option.map_some, Option.getD_some]

/-- The node of a target is found, with whatever it remembers by then. -/
theorem exec_resolve_recast (hs : s.workspace.Knows outer e μ) (ht : s.node? target = some t) :
    ∃ μ', (resolve target).exec (s.recast μ) = (.ok (t.recast μ'), s.recast μ') ∧
      s.workspace.Knows outer e μ' := by
  obtain ⟨top, htop, hdescend⟩ := Option.bind_eq_some_iff.1 ht
  obtain ⟨μ', hlist, hs'⟩ := exec_list_recast hs (descend top target.steps).1
  refine ⟨μ', ?_, hs'⟩
  rw [resolve, exec_get_bind, Session.lookup_recast, htop]
  simp only [descend_recast, hdescend, Option.map_some]
  rw [exec_bind_of_ok hlist, exec_refresh_recast hs' (Session.mem_nodes_of_node? ht)]

theorem exec_resolveBlock_recast (hs : s.workspace.Knows outer e μ)
    (hb : s.node? target = some b) (hblock : b.isBlock = true) :
    ∃ μ', (resolveBlock target).exec (s.recast μ) = (.ok (b.recast μ'), s.recast μ') ∧
      s.workspace.Knows outer e μ' := by
  obtain ⟨μ', hresolve, hs'⟩ := exec_resolve_recast hs hb
  refine ⟨μ', ?_, hs'⟩
  rw [resolveBlock, exec_bind_of_ok hresolve, Tree.recast_isBlock, if_pos hblock]
  rfl

/-- A part of an action that is left to succeed. -/
def Succeeds (m : Step Answer) : Prop :=
  ∀ s, ∃ answer s', m.exec s = (.ok answer, s') ∧ ∀ fault, answer ≠ .failed fault

/-- A changed workspace is taken over, and one of its nodes is answered. -/
theorem succeeds_installed (w : Workspace) (hold : Option String) (t : Tree) :
    Succeeds (do install w; answerNode hold t) := by
  intro s
  cases hold <;> exact ⟨_, _, rfl, fun _ h => by cases h⟩

/-- How a call ends: it is refused, and only what nodes remember may have changed, or it
succeeds. -/
inductive Ends (outer : List NodeId) (e : Memories) (s : Session) (a : Action) :
    Except ActionFault Answer × Session → Prop
  | refused {x : Error} {μ : Memories} (h : ∀ y, s.Refuses a y ↔ y = x)
      (hs : s.workspace.Knows outer e μ) :
      Ends outer e s a (.error (.tree x), s.recast μ)
  | done {answer : Answer} {s' : Session} (h : ∀ x, ¬s.Refuses a x)
      (hanswer : ∀ fault, answer ≠ .failed fault) : Ends outer e s a (.ok answer, s')

/-- All is decided where an operation may fail. -/
theorem ends_ofExcept {a : Action} {result : Except Error α} {k : α → Step Answer}
    (hs : s.workspace.Knows outer e μ) (hrefuses : ∀ x, s.Refuses a x ↔ result = .error x)
    (hk : ∀ y, Succeeds (k y)) : Ends outer e s a ((ofExcept result >>= k).exec (s.recast μ)) := by
  cases result with
  | error x => exact .refused (fun y => (hrefuses y).trans (by simp [eq_comm])) hs
  | ok y =>
    obtain ⟨answer, s', hexec, hanswer⟩ := hk y (s.recast μ)
    rw [exec_ofExcept_bind, hexec]
    exact .done (fun x h => by simpa using (hrefuses x).1 h) hanswer

theorem Ends.bind {a : Action} {m : Step α} {k : α → Step Answer} {y : α} {s₁ s₂ : Session}
    (hm : m.exec s₁ = (.ok y, s₂)) (hk : Ends outer e s a ((k y).exec s₂)) :
    Ends outer e s a ((m >>= k).exec s₁) := by
  rwa [exec_bind_of_ok hm]

theorem ends_add (hs : s.workspace.Knows outer e μ) (hb : s.node? target = some b)
    (hblock : b.isBlock = true) (content : NodeContent) (position : Option Nat)
    (hold : Option String) :
    Ends outer e s (.add target content position hold)
      ((perform (.add target content position hold)).exec (s.recast μ)) := by
  obtain ⟨μ, hresolve, hs⟩ := exec_resolveBlock_recast hs hb hblock
  refine .bind hresolve ?_
  -- children are listed only if there is a name, before positions are compared
  by_cases hname : (content.name? != some "") = true
  · obtain ⟨μ', hlist, hs'⟩ := exec_list_recast hs [(b.recast μ).id]
    rw [if_pos hname]
    refine .bind hlist ?_
    exact ends_ofExcept hs' (fun _ => Session.refuses_add_iff hb) fun y =>
      succeeds_installed y.2 hold y.1
  · rw [if_neg hname]
    exact ends_ofExcept hs (fun _ => Session.refuses_add_iff hb) fun y =>
      succeeds_installed y.2 hold y.1

theorem ends_delete {c : Tree} (hs : s.workspace.Knows outer e μ) (hb : s.node? target = some b)
    (hblock : b.isBlock = true) (hc : s.node? child = some c) :
    Ends outer e s (.delete target child)
      ((perform (.delete target child)).exec (s.recast μ)) := by
  obtain ⟨μ₁, hchild, hs⟩ := exec_resolve_recast hs hc
  refine .bind hchild ?_
  obtain ⟨μ₂, hresolve, hs⟩ := exec_resolveBlock_recast hs hb hblock
  refine .bind hresolve ?_
  obtain ⟨μ₃, hlist, hs⟩ := exec_list_recast hs [(b.recast μ₂).id]
  refine .bind hlist ?_
  refine .bind (exec_refresh_recast hs (Session.mem_nodes_of_node? hb)) ?_
  rw [Tree.recast_id]
  exact ends_ofExcept hs (fun _ => Session.refuses_delete_iff hb hc)
    fun w s => ⟨_, _, rfl, fun _ h => by cases h⟩

theorem ends_setParameters (hs : s.workspace.Knows outer e μ) (ht : s.node? target = some t)
    (hstatement : t.statement?.isSome = true) (parameters : List String) (hold : Option String) :
    Ends outer e s (.setParameters target parameters hold)
      ((perform (.setParameters target parameters hold)).exec (s.recast μ)) := by
  obtain ⟨μ', hresolve, hs⟩ := exec_resolve_recast hs ht
  refine .bind hresolve ?_
  have hsome : ¬(t.recast μ').statement?.isNone = true := by
    rw [Tree.recast_statement?, Option.isNone_map, Option.isNone_eq_false_iff.2 hstatement]
    exact Bool.false_ne_true
  rw [if_neg hsome]
  exact ends_ofExcept hs (fun _ => Session.refuses_setParameters_iff ht)
    fun w => succeeds_installed w hold _

/-- A call is refused for a reason that was there before, or it succeeds. -/
theorem ends_call (hs : s.workspace.Knows outer e μ) {a : Action} (ha : s.isCall a = true) :
    Ends outer e s a ((perform a).exec (s.recast μ)) := by
  cases a with
  | add target content position hold =>
    obtain ⟨b, hb, hblock⟩ := (Option.any_eq_true ..).1 ha
    exact ends_add hs hb hblock content position hold
  | delete target child =>
    obtain ⟨hb, hc⟩ := Bool.and_eq_true_iff.1 ha
    obtain ⟨b, hb, hblock⟩ := (Option.any_eq_true ..).1 hb
    obtain ⟨c, hc⟩ := Option.isSome_iff_exists.1 hc
    exact ends_delete hs hb hblock hc
  | setParameters target parameters hold =>
    obtain ⟨t, ht, hstatement⟩ := (Option.any_eq_true ..).1 ha
    exact ends_setParameters hs ht hstatement parameters hold
  | _ => cases ha

end Step

/-! ## Whole actions -/

namespace Session

theorem knows_memories (hs : s.workspace.Sound) :
    s.workspace.Knows s.outermost s.workspace.told s.workspace.memories :=
  ⟨⟨hs, _, hs.remembers, fun _ _ => .refl _ _ _⟩, rfl, fun _ => mem_outermost⟩

theorem recast_memories (hs : s.workspace.Sound) : s.recast s.workspace.memories = s :=
  congrArg (fun w : Workspace => { s with workspace := w })
    (Workspace.recast_of_remembers hs.remembers)

theorem sound_perform (hs : s.workspace.Sound) (a : Action) : (s.perform a).2.workspace.Sound := by
  obtain ⟨_, -, -, hfits⟩ := exists_perform_recast (knows_memories hs) a
  exact hfits.sound

theorem sound_run (hs : s.workspace.Sound) (actions : List Action) :
    (s.run actions).workspace.Sound := by
  induction actions generalizing s with
  | nil => exact hs
  | cons a actions ih => exact ih (sound_perform hs a)

theorem sweep_run (hswept : s.sweep = s) (actions : List Action) :
    (s.run actions).sweep = s.run actions := by
  induction actions generalizing s with
  | nil => exact hswept
  | cons a actions ih => exact ih (sweep_perform s a)

/-- What is answered after queries does not depend on memories that fit. -/
theorem replies_queries_recast (hs : s.workspace.Knows outer e μ) (hswept : s.sweep = s)
    {queries : List Action} (hq : ∀ q ∈ queries, q.isQuery = true) (a : Action) :
    (s.recast μ).replies [(queries, a)] = [(s.perform a).1.reply] := by
  obtain ⟨μ', hfold, hs'⟩ := exists_queries_recast hs hswept hq
  obtain ⟨-, hreply, -, -⟩ := exists_perform_recast hs' a
  rw [replies, hfold, hreply, replies]

/-- Other memories make no difference as long as they fit. -/
theorem seemsAs_recast (hs : s.workspace.Knows outer e μ) (hswept : s.sweep = s) :
    (s.recast μ).SeemsAs s where
  handles_eq := rfl
  store_eq := rfl
  next_eq := rfl
  journal_eq := rfl
  forest_eq := by
    rw [recast_forest, List.map_map]
    exact List.map_congr_left fun _ _ => Tree.recast_forget
  replies_eq queries hq a := by
    -- both sides are what the session answers at once
    have hself := replies_queries_recast (knows_memories hs.sound) hswept hq a
    rw [recast_memories hs.sound] at hself
    rw [replies_queries_recast hs hswept hq, hself]

/-- After any actions, a call fails exactly for the reasons to refuse it. After one that fails, the
session looks as before. -/
theorem refuses_run {actions : List Action} (hs : start.run actions = s) {a : Action}
    (ha : s.isCall a = true) :
    (∀ fault, (s.perform a).1 = .failed fault ↔ ∃ x, fault = .tree x ∧ s.Refuses a x) ∧
      ∀ fault, (s.perform a).1 = .failed fault → (s.perform a).2.SeemsAs s := by
  have hsound : s.workspace.Sound := hs ▸ sound_run Workspace.Sound.empty actions
  have hswept : s.sweep = s := hs ▸ sweep_run rfl actions
  -- the session itself is one of those with memories that fit
  have hends := Step.ends_call (knows_memories hsound) ha
  rw [recast_memories hsound] at hends
  rw [perform_eq]
  generalize (Step.perform a).exec s = out at hends
  cases hends with
  | refused h hs' =>
    refine ⟨fun fault => ?_, fun _ _ => ?_⟩
    · simp only [conclude, h, exists_eq_right, Answer.failed.injEq]
      exact eq_comm
    · rw [conclude, recast_sweep, hswept]
      exact seemsAs_recast hs' hswept
  | done h hanswer =>
    refine ⟨fun fault => iff_of_false (hanswer fault) ?_, fun fault hfailed =>
      absurd hfailed (hanswer fault)⟩
    rintro ⟨x, -, hx⟩
    exact h x hx

/-- A position past the end, a name missing there, a block deleted twice, a child of another tree
with the same text, and a root, which has no name. -/
theorem refuses_run_deleted :
    ∃ s, s = start.run [
        .openDocument (.file ⟨⟨"site.conf"⟩, "L 1\n<A>\nM 1\n</A>\n"⟩ []) none (some "r"),
        .openDocument (.file ⟨⟨"site.conf"⟩, "L 1\n<A>\nM 1\n</A>\n"⟩ []) none (some "q"),
        .get (.ofText "r/1") (some "b"),
        .delete (.ofText "r") (.ofText "b")] ∧
      ∀ call ∈ [
          (.add (.ofText "r") (.comment "c") (some 2) none, .indexOutOfRange 2 1),
          (.add (.ofText "b") (.directive "" []) (some 2) none, .emptyName),
          (.delete (.ofText "r") (.ofText "b"), .notFound),
          (.delete (.ofText "r") (.ofText "q/0"), .notFound),
          (.setParameters (.ofText "r") ["X"] none, Error.emptyName)],
        s.Refuses call.1 call.2 ∧ (s.perform call.1).1 = .failed (.tree call.2) ∧
          (s.perform call.1).2.SeemsAs s := by
  have hrefused : ∀ {actions s} {call : Action × Error}, start.run actions = s →
      s.isCall call.1 = true ∧ (s.perform call.1).1.error? = some call.2 →
        s.Refuses call.1 call.2 ∧ (s.perform call.1).1 = .failed (.tree call.2) ∧
          (s.perform call.1).2.SeemsAs s := by
    rintro actions s call hs ⟨hcall, herror⟩
    have hrun := refuses_run hs hcall
    have hfailed := Answer.eq_failed_of_error? herror
    obtain ⟨x, hx, hrefuses⟩ := (hrun.1 _).1 hfailed
    exact ⟨ActionFault.tree.inj hx ▸ hrefuses, hfailed, hrun.2 _ hfailed⟩
  refine ⟨_, rfl, fun call hmem => hrefused rfl ?_⟩
  revert call
  decide +kernel

end Session

end HttpdConf
