import HttpdConf.Proofs.Ancestry

/-!
# Searches after a node is added or deleted

A search from a block finds the nodes below it that match, in document order, and may leave out
inactive blocks with all inside. When the children of one block are replaced, every search from a
node around it finds what it found before and after the block, and between that what it finds among
the new children. So a node that is deleted takes only itself and what is in it out of the results,
and a node that is added comes to its place in document order or to none.

## Main definitions

* `Search`, `Search.run`: the searches from a block
* `Forest.found`: the numbers of what a search finds among some trees
* `IsContext`: what is around the children of a block
* `Workspace.SearchesLose`, `Workspace.SearchesGain`: results before and after a change

## Main results

* `Tree.exists_isContext`: a node around a block is a context of the children of the block
* `Workspace.searches_run`: what a deletion takes out of the results and what an addition puts in
-/

namespace HttpdConf

variable {w w' : Workspace} {t u b x : Tree} {f : Forest} {id : NodeId} {exclude : Bool}
  {p : Tree → Bool} {k : Forest → Forest} {l r : List NodeId}

/-! ## Searches -/

/-- A search from a block, for blocks or directives of a name or for comments with a text. -/
inductive Search where
  | blocks (name : String) (exclude : Bool)
  | directives (name : String) (exclude : Bool)
  | comments (text : String) (exact : Bool)

namespace Search

/-- What the search finds from a block. -/
def run (s : Search) (t : Tree) : List Tree :=
  match s with
  | blocks name exclude => t.findBlocks name exclude
  | directives name exclude => t.findDirectives name exclude
  | comments text exact => t.findComments text exact

/-- Whether the search leaves out inactive blocks. -/
def excludes : Search → Bool
  | blocks _ exclude => exclude
  | directives _ exclude => exclude
  | comments _ _ => false

/-- Whether a node is one that the search is for. -/
def accepts (s : Search) (t : Tree) : Bool :=
  match s with
  | blocks name _ => t.isBlock && Text.sameName t.name name
  | directives name _ => t.isDirective && Text.sameName t.name name
  | comments text exact => t.isCommentOf text exact

theorem run_eq (s : Search) (t : Tree) :
    s.run t = (t.descendants s.excludes).filter s.accepts := by
  cases s <;> rfl

theorem accepts_withChildren (s : Search) (k : Forest → Forest) (t : Tree) :
    s.accepts (t.withChildren k) = s.accepts t := by
  cases s <;> cases t <;> rfl

theorem accepts_mapCores (s : Search) (h : Core → Core) (t : Tree) :
    s.accepts (t.mapCores h) = s.accepts t := by
  cases s <;> cases t <;> simp [accepts, Tree.mapCores, Tree.isBlock, Tree.isDirective, Tree.name,
    Tree.statement?, Tree.isCommentOf]

end Search

/-! ## What is found -/

theorem Tree.descendants_eq (exclude : Bool) (t : Tree) :
    t.descendants exclude = Forest.walk exclude t.children := by
  cases t <;> simp [Tree.descendants, Tree.children, Forest.walk]

namespace Forest

/-- The numbers of the nodes with a property that a walk meets. -/
def found (exclude : Bool) (p : Tree → Bool) (f : Forest) : List NodeId :=
  ((Forest.walk exclude f).filter p).map Tree.id

@[simp]
theorem found_nil (exclude : Bool) (p : Tree → Bool) : found exclude p [] = [] := by
  simp [found, Forest.walk]

/-- A tree that is not left out is found before what is below it. -/
theorem found_singleton (h : exclude = true → t.isActive = true) :
    found exclude p [t] = (if p t then [t.id] else []) ++ found exclude p t.children := by
  have hwalk : Forest.walk exclude [t] = t :: t.descendants exclude := by
    have hshown : (exclude && !t.isActive) = false := by
      cases exclude with
      | false => rfl
      | true => simp [h rfl]
    rw [Forest.walk, hshown, if_neg (by simp), Forest.walk, List.append_nil]
  rw [found, hwalk, Tree.descendants_eq, List.filter_cons]
  split <;> rfl

theorem found_inactive (h : t.isActive = false) : found true p [t] = [] := by
  simp [found, Forest.walk, h]

theorem found_append (f g : Forest) :
    found exclude p (f ++ g) = found exclude p f ++ found exclude p g := by
  have hwalk : Forest.walk exclude (f ++ g) = Forest.walk exclude f ++ Forest.walk exclude g := by
    induction f with
    | nil => simp [Forest.walk]
    | cons t f ih =>
      rw [List.cons_append, Forest.walk, Forest.walk, ih]
      split <;> simp
  rw [found, hwalk, List.filter_append, List.map_append]
  rfl

theorem found_cons (t : Tree) (f : Forest) :
    found exclude p (t :: f) = found exclude p [t] ++ found exclude p f :=
  found_append [t] f

end Forest

mutual
theorem Tree.descendants_sublist (exclude : Bool) (t : Tree) :
    (t.descendants exclude).Sublist (Forest.nodes t.children) := by
  match t with
  | .comment core text => simp [Tree.descendants]
  | .directive core statement => simp [Tree.descendants]
  | .block core statement children =>
    rw [Tree.descendants]
    exact Forest.walk_sublist exclude children

/-- A walk meets nodes in document order. -/
theorem Forest.walk_sublist (exclude : Bool) (f : Forest) :
    (Forest.walk exclude f).Sublist (Forest.nodes f) := by
  match f with
  | [] => simp [Forest.walk]
  | t :: f =>
    have hrest := Forest.walk_sublist exclude f
    rw [Forest.walk, Forest.nodes_cons]
    split
    · exact hrest.trans (List.sublist_append_right ..)
    · rw [t.nodes_eq]
      exact ((Tree.descendants_sublist exclude t).append hrest).cons_cons t
end

theorem Forest.found_sublist (exclude : Bool) (p : Tree → Bool) (f : Forest) :
    (Forest.found exclude p f).Sublist ((Forest.nodes f).map Tree.id) :=
  ((List.filter_sublist ..).trans (Forest.walk_sublist exclude f)).map Tree.id

theorem Search.map_id_run (s : Search) (t : Tree) :
    (s.run t).map Tree.id = Forest.found s.excludes s.accepts t.children := by
  rw [s.run_eq, Tree.descendants_eq]
  rfl

theorem Search.mem_nodes_of_run (s : Search) (hu : u ∈ s.run t) : u ∈ t.nodes := by
  rw [s.run_eq] at hu
  exact Tree.mem_nodes_of_mem_children
    ((t.descendants_sublist s.excludes).subset (List.mem_of_mem_filter hu))

/-! ## Contexts -/

/-- What is around the children of a block: the numbers before and after those of the nodes among
them, and what a search finds before and after what it finds among them. It does not get there when
it leaves out inactive blocks and one of them is in between. -/
structure IsContext (b : Tree) (around : (Forest → Forest) → Forest) (hidden : Prop)
    (l r : List NodeId) : Prop where
  ids : ∀ k, (Forest.nodes (around k)).map Tree.id =
    l ++ ((Forest.nodes (k b.children)).map Tree.id ++ r)
  found : ∀ (exclude : Bool) (p : Tree → Bool), (∀ k t, p (t.withChildren k) = p t) →
    ∃ before after, before.Sublist l ∧ after.Sublist r ∧ ∀ k,
      (¬ (exclude = true ∧ hidden) → Forest.found exclude p (around k) =
        before ++ (Forest.found exclude p (k b.children) ++ after)) ∧
      (exclude = true ∧ hidden → Forest.found exclude p (around k) = before ++ after)

/-- The children of a block are around themselves. -/
theorem IsContext.refl (b : Tree) : IsContext b (fun k => k b.children) False [] [] := by
  refine ⟨fun k => by simp, fun exclude p _ => ⟨[], [], .refl _, .refl _, fun k => ⟨?_, ?_⟩⟩⟩
  · simp
  · exact fun h => h.2.elim

theorem Tree.withChildren_children (ht : t.isBlock = true) :
    (t.withChildren k).children = k t.children := by
  obtain ⟨core, statement, children, rfl⟩ := Tree.exists_of_isBlock ht
  rfl

theorem Tree.isActive_withChildren (t : Tree) (k : Forest → Forest) :
    (t.withChildren k).isActive = t.isActive := by
  cases t <;> rfl

theorem Tree.id_withChildren (t : Tree) (k : Forest → Forest) : (t.withChildren k).id = t.id := by
  cases t <;> rfl

/-- New children of a node inside are new children of the node itself. -/
theorem Tree.update_withChildren (id : NodeId) (k : Forest → Forest) (t : Tree) :
    t.update id (Tree.withChildren k) =
      t.withChildren (if t.id = id then k else Forest.update id (Tree.withChildren k)) := by
  cases t with
  | block core statement children =>
    by_cases h : core.id = id <;> simp [Tree.update, Tree.withChildren, Tree.id, Tree.core, h]
  | _ => simp [Tree.update, Tree.withChildren]

theorem Tree.id_update_withChildren (id : NodeId) (k : Forest → Forest) (t : Tree) :
    (t.update id (Tree.withChildren k)).id = t.id := by
  rw [Tree.update_withChildren, Tree.id_withChildren]

namespace IsContext

variable {around : (Forest → Forest) → Forest} {hidden : Prop} {m : Forest → Forest}

/-- The context goes on with a tree around it and others after that. -/
theorem cons_here (h : IsContext b around hidden l r) {above : (Forest → Forest) → Tree}
    (habove : ∀ k, ∃ m, above k = t.withChildren m ∧ (above k).children = around k)
    (rest : Forest) :
    IsContext b (fun k => above k :: rest) (hidden ∨ t.isActive = false) (t.id :: l)
      (r ++ (Forest.nodes rest).map Tree.id) := by
  refine ⟨fun k => ?_, fun exclude p hp => ?_⟩
  · obtain ⟨m, habove, hchildren⟩ := habove k
    rw [Forest.nodes_cons, (above k).nodes_eq, hchildren, List.map_append, List.map_cons, h.ids,
      habove, Tree.id_withChildren]
    simp
  · obtain ⟨before, after, hbefore, hafter, hfound⟩ := h.found exclude p hp
    have hrest := Forest.found_sublist exclude p rest
    by_cases hleft : exclude = true ∧ t.isActive = false
    · -- the tree is left out, with all inside
      obtain ⟨rfl, hinactive⟩ := hleft
      refine ⟨[], Forest.found true p rest, List.nil_sublist _,
        hrest.trans (List.sublist_append_right ..), fun k => ⟨?_, fun _ => ?_⟩⟩
      · exact fun hshown => absurd ⟨rfl, .inr hinactive⟩ hshown
      · obtain ⟨m, habove, -⟩ := habove k
        rw [Forest.found_cons, Forest.found_inactive]
        rw [habove, Tree.isActive_withChildren, hinactive]
    · refine ⟨(if p t then [t.id] else []) ++ before, after ++ Forest.found exclude p rest, ?_,
        hafter.append hrest, fun k => ?_⟩
      · split
        · exact hbefore.cons_cons _
        · exact hbefore.cons _
      · -- the tree comes first, if it matches, then what is found in it
        have hactive : exclude = true → t.isActive = true := fun hexclude => by
          simpa [hexclude] using hleft
        obtain ⟨m, habove, hchildren⟩ := habove k
        have hhead : Forest.found exclude p [above k] =
            (if p t then [t.id] else []) ++ Forest.found exclude p (around k) := by
          rw [Forest.found_singleton, hchildren, habove, hp, Tree.id_withChildren]
          rw [habove, Tree.isActive_withChildren]
          exact hactive
        rw [Forest.found_cons, hhead]
        constructor
        · intro hshown
          rw [(hfound k).1 fun hhidden => hshown ⟨hhidden.1, .inl hhidden.2⟩]
          simp
        · rintro ⟨hexclude, hhidden⟩
          have hinner : hidden := hhidden.resolve_right (by simp [hactive hexclude])
          rw [(hfound k).2 ⟨hexclude, hinner⟩]
          simp

/-- The context goes on with a tree before it. -/
theorem cons_later (h : IsContext b around hidden l r) (t : Tree) :
    IsContext b (fun k => t :: around k) hidden (t.nodes.map Tree.id ++ l) r := by
  refine ⟨fun k => ?_, fun exclude p hp => ?_⟩
  · rw [Forest.nodes_cons, List.map_append, h.ids]
    simp
  · obtain ⟨before, after, hbefore, hafter, hfound⟩ := h.found exclude p hp
    have hhead := Forest.found_sublist exclude p [t]
    rw [Forest.nodes_cons, Forest.nodes_nil, List.append_nil] at hhead
    refine ⟨Forest.found exclude p [t] ++ before, after, hhead.append hbefore, hafter,
      fun k => ⟨fun hshown => ?_, fun hhidden => ?_⟩⟩
    · rw [Forest.found_cons, (hfound k).1 hshown, List.append_assoc]
    · rw [Forest.found_cons, (hfound k).2 hhidden, List.append_assoc]

theorem congr (h : IsContext b around hidden l r) {around' : (Forest → Forest) → Forest}
    {hidden' : Prop} (haround : ∀ k, around' k = around k) (hhidden : hidden' ↔ hidden) :
    IsContext b around' hidden' l r := by
  obtain rfl : around' = around := funext haround
  obtain rfl : hidden' = hidden := propext hhidden
  exact h

end IsContext

mutual
/-- A node around a block is a context of the children of the block. -/
theorem Tree.exists_isContext (hblock : b.isBlock = true) (t : Tree)
    (hnodup : (t.nodes.map Tree.id).Nodup) (hb : b ∈ t.nodes) :
    ∃ l r, IsContext b (fun k => (t.update b.id (Tree.withChildren k)).children)
      (∃ v ∈ Forest.nodes t.children, v.isActive = false ∧ b ∈ v.nodes) l r := by
  match t with
  | .comment core text =>
    rw [List.mem_singleton.1 hb] at hblock
    simp [Tree.isBlock] at hblock
  | .directive core statement =>
    rw [List.mem_singleton.1 hb] at hblock
    simp [Tree.isBlock] at hblock
  | .block core statement children =>
    obtain ⟨hself, hchildren⟩ := Tree.nodup_block hnodup
    rw [Tree.nodes] at hb
    rcases List.mem_cons.1 hb with rfl | hb
    · -- no node inside a block encloses it
      refine ⟨[], [], (IsContext.refl _).congr (fun k => ?_) ⟨?_, False.elim⟩⟩
      · rw [Tree.update_self rfl, Tree.withChildren_children rfl]
      · rintro ⟨v, hv, -, hbv⟩
        exact hself _ ((Forest.nodes_sublist children hv).subset hbv) rfl
    · obtain ⟨l, r, hcontext⟩ := Forest.exists_isContext hblock children hchildren hb
      refine ⟨l, r, hcontext.congr (fun k => ?_) Iff.rfl⟩
      rw [Tree.update_withChildren, Tree.withChildren_children rfl,
        if_neg fun heq => hself b hb heq.symm]
      rfl

theorem Forest.exists_isContext (hblock : b.isBlock = true) (f : Forest)
    (hnodup : ((Forest.nodes f).map Tree.id).Nodup) (hb : b ∈ Forest.nodes f) :
    ∃ l r, IsContext b (fun k => Forest.update b.id (Tree.withChildren k) f)
      (∃ v ∈ Forest.nodes f, v.isActive = false ∧ b ∈ v.nodes) l r := by
  match f with
  | [] => simp at hb
  | t :: f =>
    rw [Forest.nodes_cons, List.map_append, List.nodup_append] at hnodup
    obtain ⟨ht, hf, hdisjoint⟩ := hnodup
    rw [Forest.nodes_cons, List.mem_append] at hb
    -- the block is in one of the trees, and the change does not touch the others
    rcases hb with hb | hb
    · have hothers : ∀ u ∈ Forest.nodes f, u.id ≠ b.id := fun u hu hid =>
        hdisjoint b.id (List.mem_map_of_mem hb) u.id (List.mem_map_of_mem hu) hid.symm
      obtain ⟨l, r, hcontext⟩ := Tree.exists_isContext hblock t ht hb
      have habove := hcontext.cons_here
        (fun k => ⟨_, Tree.update_withChildren b.id k t, rfl⟩) f
      refine ⟨_, _, habove.congr (fun k => ?_) ⟨?_, ?_⟩⟩
      · rw [Forest.update, Forest.update_of_not_mem f hothers]
      · rintro ⟨v, hv, hinactive, hbv⟩
        rw [Forest.nodes_cons, t.nodes_eq, List.cons_append, List.mem_cons, List.mem_append] at hv
        rcases hv with rfl | hv | hv
        · exact .inr hinactive
        · exact .inl ⟨v, hv, hinactive, hbv⟩
        · exact absurd rfl (hothers b ((Forest.nodes_sublist f hv).subset hbv))
      · rw [Forest.nodes_cons]
        rintro (⟨v, hv, h⟩ | hinactive)
        · exact ⟨v, List.mem_append_left _ (Tree.mem_nodes_of_mem_children hv), h⟩
        · exact ⟨t, List.mem_append_left _ t.self_mem_nodes, hinactive, hb⟩
    · have hothers : ∀ u ∈ t.nodes, u.id ≠ b.id := fun u hu hid =>
        hdisjoint u.id (List.mem_map_of_mem hu) b.id (List.mem_map_of_mem hb) hid
      obtain ⟨l, r, hcontext⟩ := Forest.exists_isContext hblock f hf hb
      refine ⟨_, _, (hcontext.cons_later t).congr (fun k => ?_) ⟨?_, ?_⟩⟩
      · rw [Forest.update, Tree.update_of_not_mem t hothers]
      · rintro ⟨v, hv, hinactive, hbv⟩
        rw [Forest.nodes_cons, List.mem_append] at hv
        rcases hv with hv | hv
        · exact absurd rfl (hothers b ((Tree.nodes_sublist t hv).subset hbv))
        · exact ⟨v, hv, hinactive, hbv⟩
      · rw [Forest.nodes_cons]
        rintro ⟨v, hv, h⟩
        exact ⟨v, List.mem_append_right _ hv, h⟩
end

/-! ## Nodes after a change -/

section Update

variable {g : Tree → Tree}

mutual
/-- A node is changed in place, unless it is inside the node that is changed. -/
theorem Tree.update_mem_nodes (t : Tree) (hx : x ∈ t.nodes) :
    x.update id g ∈ (t.update id g).nodes ∨
      ∃ u ∈ t.nodes, u.id = id ∧ x ∈ Forest.nodes u.children := by
  match t with
  | .comment core text =>
    obtain rfl := List.mem_singleton.1 hx
    exact .inl (Tree.self_mem_nodes _)
  | .directive core statement =>
    obtain rfl := List.mem_singleton.1 hx
    exact .inl (Tree.self_mem_nodes _)
  | .block core statement children =>
    rw [Tree.nodes] at hx
    rcases List.mem_cons.1 hx with rfl | hx
    · exact .inl (Tree.self_mem_nodes _)
    · by_cases hid : core.id = id
      · exact .inr ⟨_, Tree.self_mem_nodes _, hid, hx⟩
      · rcases Forest.update_mem_nodes children hx with hx | ⟨u, hu, h⟩
        · refine .inl ?_
          rw [Tree.update, beq_false_of_ne hid, if_neg (by simp), Tree.nodes]
          exact List.mem_cons_of_mem _ hx
        · exact .inr ⟨u, Tree.mem_nodes_of_mem_children hu, h⟩

theorem Forest.update_mem_nodes (f : Forest) (hx : x ∈ Forest.nodes f) :
    x.update id g ∈ Forest.nodes (Forest.update id g f) ∨
      ∃ u ∈ Forest.nodes f, u.id = id ∧ x ∈ Forest.nodes u.children := by
  match f with
  | [] => simp at hx
  | t :: f =>
    rw [Forest.nodes_cons, List.mem_append] at hx
    rw [Forest.update, Forest.nodes_cons, Forest.nodes_cons]
    rcases hx with hx | hx
    · rcases Tree.update_mem_nodes t hx with hx | ⟨u, hu, h⟩
      · exact .inl (List.mem_append_left _ hx)
      · exact .inr ⟨u, List.mem_append_left _ hu, h⟩
    · rcases Forest.update_mem_nodes f hx with hx | ⟨u, hu, h⟩
      · exact .inl (List.mem_append_right _ hx)
      · exact .inr ⟨u, List.mem_append_right _ hu, h⟩
end

end Update

section MapCores

variable {h : Core → Core}

theorem Tree.isActive_mapCores (hpolicy : ∀ core, (h core).policy = core.policy) (t : Tree) :
    (t.mapCores h).isActive = t.isActive := by
  cases t <;> simp [Tree.mapCores, Tree.isActive, hpolicy]

mutual
theorem Tree.descendants_mapCores (hpolicy : ∀ core, (h core).policy = core.policy) (t : Tree) :
    (t.mapCores h).descendants exclude = (t.descendants exclude).map (Tree.mapCores h) := by
  match t with
  | .comment core text => simp [Tree.mapCores, Tree.descendants]
  | .directive core statement => simp [Tree.mapCores, Tree.descendants]
  | .block core statement children =>
    rw [Tree.mapCores, Tree.descendants, Tree.descendants, Forest.walk_mapCores hpolicy children]

/-- Which nodes a walk meets does not depend on flags. -/
theorem Forest.walk_mapCores (hpolicy : ∀ core, (h core).policy = core.policy) (f : Forest) :
    Forest.walk exclude (Forest.mapCores h f) = (Forest.walk exclude f).map (Tree.mapCores h) := by
  match f with
  | [] => simp [Forest.mapCores, Forest.walk]
  | t :: f =>
    rw [Forest.mapCores, Forest.walk, Forest.walk, Tree.isActive_mapCores hpolicy,
      Tree.descendants_mapCores hpolicy t, Forest.walk_mapCores hpolicy f]
    split <;> simp
end

theorem Search.map_id_run_mapCores (s : Search) (hpolicy : ∀ core, (h core).policy = core.policy)
    (hid : ∀ core, (h core).id = core.id) (t : Tree) :
    (s.run (t.mapCores h)).map Tree.id = (s.run t).map Tree.id := by
  rw [s.run_eq, s.run_eq, Tree.descendants_mapCores hpolicy, List.filter_map, List.map_map]
  have hids : Tree.id ∘ Tree.mapCores h = Tree.id := by
    funext u
    rw [Function.comp_apply, Tree.id, Tree.mapCores_core, hid, Tree.id]
  have haccepts : s.accepts ∘ Tree.mapCores h = s.accepts := funext (s.accepts_mapCores h)
  rw [hids, haccepts]

end MapCores

theorem Core.record_policy (id : NodeId) (around : List NodeId) (core : Core) :
    (core.record id around).policy = core.policy := by
  unfold Core.record
  split
  · rfl
  · split <;> rfl

namespace Workspace

variable {loose : Forest} {next : NodeId}

/-- When a node is changed, and the children that it does not keep are still alive, every node is
changed in place. -/
theorem update_mem_of_kept {g : Tree → Tree} (hw : w.Sound) (hb : b ∈ Forest.nodes w.forest)
    (hkept : ∀ u ∈ b.children, u ∈ loose ∨ u ∈ (g b).children) (hx : x ∈ Forest.nodes w.forest) :
    x.update b.id g ∈ Forest.nodes (loose ++ w.forest.update b.id g) := by
  have hplace : x.update b.id g ∈ Forest.nodes (w.forest.update b.id g) ∨
      ∃ u ∈ Forest.nodes w.forest, u.id = b.id ∧ x ∈ Forest.nodes u.children :=
    Forest.update_mem_nodes w.forest hx
  rw [Forest.nodes_append, List.mem_append]
  rcases hplace with hx | ⟨u, hu, hub, hxu⟩
  · exact .inr hx
  · -- a node inside the changed one stays as it is, with the child it is in
    obtain rfl := hw.tidy.eq_of_id_eq hu hb hub
    have houtside : ∀ v ∈ x.nodes, v.id ≠ u.id := by
      intro v hv hvid
      have hself := hw.tidy.not_encloses_self hu
      rw [Tree.encloses_iff.2 ⟨v, (Forest.nodes_sublist _ hxu).subset hv, hvid⟩] at hself
      simp at hself
    rw [Tree.update_of_not_mem x houtside]
    obtain ⟨c, hc, hxc⟩ := Forest.mem_nodes.1 hxu
    rcases hkept c hc with hc | hc
    · exact .inl (Forest.mem_nodes.2 ⟨c, hc, hxc⟩)
    · refine .inr ((Forest.nodes_sublist _
        (Forest.mem_nodes_update w.forest hw.tidy.nodup hu)).subset ?_)
      exact Tree.mem_nodes_of_mem_children (Forest.mem_nodes.2 ⟨c, hc, hxc⟩)

/-- When the children of a block are replaced, and those that are not kept are still alive, every
node is changed in place. -/
theorem update_mem_of_alters (hw : w.Sound) (hb : b ∈ Forest.nodes w.forest)
    (hblock : b.isBlock = true) (hkept : ∀ u ∈ b.children, u ∈ loose ∨ u ∈ k b.children)
    (hx : x ∈ Forest.nodes w.forest) :
    x.update b.id (Tree.withChildren k) ∈
      Forest.nodes (loose ++ w.forest.update b.id (Tree.withChildren k)) := by
  refine update_mem_of_kept hw hb (fun u hu => ?_) hx
  rw [Tree.withChildren_children hblock]
  exact hkept u hu

/-- Numbers and results of searches are those of the node after the change, whatever is recorded. -/
structure SameResults (x' x : Tree) : Prop where
  ids : x'.nodes.map Tree.id = x.nodes.map Tree.id
  children : x'.children.map Tree.id = x.children.map Tree.id
  run : ∀ s : Search, (s.run x').map Tree.id = (s.run x).map Tree.id

theorem exists_find?_of_alters (hw : w.Sound) (hb : b ∈ Forest.nodes w.forest)
    (hblock : b.isBlock = true) (h : w.Alters b (Tree.withChildren k) loose next)
    (hkept : ∀ u ∈ b.children, u ∈ loose ∨ u ∈ k b.children) (hx : x ∈ Forest.nodes w.forest) :
    ∃ x', Forest.find? (Forest.markModified
        (loose ++ w.forest.update b.id (Tree.withChildren k)) b.core) x.id = some x' ∧
      SameResults x' (x.update b.id (Tree.withChildren k)) := by
  have hmem := update_mem_of_alters hw hb hblock hkept hx
  -- recording a change only sets flags
  rw [Forest.markModified_eq]
  generalize hrecord : Core.record b.core.id _ = record
  have hids : ∀ core, (record core).id = core.id ∧ (record core).ancestor = core.ancestor := by
    rw [← hrecord]
    exact Core.record_id_ancestor _ _
  have hpolicy : ∀ core, (record core).policy = core.policy := by
    rw [← hrecord]
    exact Core.record_policy _ _
  have hmapid : ∀ t : Tree, (t.mapCores record).id = t.id := fun t => by
    rw [Tree.id, Tree.mapCores_core, (hids _).1, Tree.id]
  have hmem' : (x.update b.id (Tree.withChildren k)).mapCores record ∈
      Forest.nodes (Forest.mapCores record
        (loose ++ w.forest.update b.id (Tree.withChildren k))) := by
    rw [Forest.nodes_mapCores]
    exact List.mem_map_of_mem hmem
  have hfind := ((hw.alters hb h w.journal).tidy.mapCores hids).find?_eq hmem'
  rw [hmapid, Tree.id_update_withChildren] at hfind
  refine ⟨_, hfind, ?_, ?_, fun s => s.map_id_run_mapCores hpolicy (fun core => (hids core).1) _⟩
  · rw [Tree.nodes_mapCores, List.map_map]
    exact List.map_congr_left fun t _ => hmapid t
  · rw [Tree.mapCores_children, List.map_map]
    exact List.map_congr_left fun t _ => hmapid t

/-- What is not around the block is left as it is. -/
theorem update_of_not_around (hw : w.Sound) (hb : b ∈ Forest.nodes w.forest)
    (hx : x ∈ Forest.nodes w.forest) (hout : b ∉ x.nodes) {g : Tree → Tree} :
    x.update b.id g = x := by
  refine Tree.update_of_not_mem x fun u hu hid => hout ?_
  rwa [hw.tidy.eq_of_id_eq hb ((Forest.nodes_sublist _ hx).subset hu) hid.symm]

end Workspace

mutual
theorem Tree.update_eq_self {g : Tree → Tree} (hg : ∀ u, g u = u) (t : Tree) :
    t.update id g = t := by
  match t with
  | .comment core text => simp [Tree.update, hg]
  | .directive core statement => simp [Tree.update, hg]
  | .block core statement children =>
    rw [Tree.update, hg, Forest.update_eq_self hg children]
    split <;> rfl

theorem Forest.update_eq_self {g : Tree → Tree} (hg : ∀ u, g u = u) (f : Forest) :
    Forest.update id g f = f := by
  match f with
  | [] => rw [Forest.update]
  | t :: f => rw [Forest.update, Tree.update_eq_self hg t, Forest.update_eq_self hg f]
end

/-- Before and after a change of its children, a context has the same around them. -/
theorem exists_context (hblock : b.isBlock = true) (hnodup : (x.nodes.map Tree.id).Nodup)
    (hb : b ∈ x.nodes) :
    ∃ l r, IsContext b (fun k => (x.update b.id (Tree.withChildren k)).children)
        (∃ v ∈ Forest.nodes x.children, v.isActive = false ∧ b ∈ v.nodes) l r ∧
      (x.update b.id (Tree.withChildren fun children => children)).children = x.children := by
  obtain ⟨l, r, h⟩ := Tree.exists_isContext hblock x hnodup hb
  refine ⟨l, r, h, ?_⟩
  rw [Tree.update_eq_self fun u => ?_]
  cases u <;> rfl

/-! ## Deletions -/

/-- Numbers that are not in a tree are kept when those in it are taken out. -/
theorem Tree.filter_not_in_eq_self {ids : List NodeId}
    (h : ∀ id ∈ ids, ∀ v ∈ t.nodes, v.id ≠ id) :
    ids.filter (fun id => !t.nodes.any (·.id == id)) = ids := by
  rw [List.filter_eq_self]
  intro id hid
  simpa using h id hid

/-- Without one of the trees, a search does not find what is in it. -/
theorem Forest.found_delete {before after : Forest}
    (hnodup : ((Forest.nodes (before ++ t :: after)).map Tree.id).Nodup) :
    Forest.found exclude p (before ++ after) =
      (Forest.found exclude p (before ++ t :: after)).filter
        fun id => !t.nodes.any (·.id == id) := by
  rw [Forest.nodes_append, Forest.nodes_cons, List.map_append, List.map_append,
    List.nodup_append, List.nodup_append] at hnodup
  obtain ⟨-, ⟨-, -, hafter⟩, hbefore⟩ := hnodup
  have hkeep : ∀ f : Forest, (∀ u ∈ Forest.nodes f, ∀ v ∈ t.nodes, v.id ≠ u.id) →
      (Forest.found exclude p f).filter (fun id => !t.nodes.any (·.id == id)) =
        Forest.found exclude p f := by
    refine fun f hf => Tree.filter_not_in_eq_self fun id hid => ?_
    obtain ⟨u, hu, rfl⟩ := List.mem_map.1 ((Forest.found_sublist exclude p f).subset hid)
    exact hf u hu
  have hgone : (Forest.found exclude p [t]).filter (fun id => !t.nodes.any (·.id == id)) = [] := by
    rw [List.filter_eq_nil_iff]
    intro id hid
    have hmem := (Forest.found_sublist exclude p [t]).subset hid
    rw [Forest.nodes_cons, Forest.nodes_nil, List.append_nil] at hmem
    simpa using hmem
  rw [Forest.found_append, Forest.found_append, Forest.found_cons t after, List.filter_append,
    List.filter_append, hgone, hkeep before fun u hu v hv heq => ?_,
    hkeep after fun u hu v hv heq => ?_, List.nil_append]
  · exact hafter v.id (List.mem_map_of_mem hv) u.id (List.mem_map_of_mem hu) heq
  · exact hbefore u.id (List.mem_map_of_mem hu) v.id
      (List.mem_append_left _ (List.mem_map_of_mem hv)) heq.symm

namespace Workspace

variable {c : Tree} {child : NodeId}

/-- What searches find after a child of a block was deleted: around the block what they found before
without the child and what is in it, elsewhere what they found before. From no node that was not in
the child, such as the root of the block, is any of this ever found again. -/
structure SearchesLose (w w' : Workspace) (b c : Tree) : Prop where
  around : ∀ x ∈ Forest.nodes w.forest, b ∈ x.nodes →
    ∃ x', w'.forest.find? x.id = some x' ∧ ∀ s : Search, (s.run x').map Tree.id =
      ((s.run x).filter fun u => !c.nodes.any (·.id == u.id)).map Tree.id
  elsewhere : ∀ x ∈ Forest.nodes w.forest, b ∉ x.nodes →
    ∃ x', w'.forest.find? x.id = some x' ∧ ∀ s : Search,
      (s.run x').map Tree.id = (s.run x).map Tree.id
  never : ∀ later, ∀ x ∈ Forest.nodes w.forest, x ∉ c.nodes →
    ∀ x', (w'.run later).forest.find? x.id = some x' → ∀ s : Search, ∀ u ∈ s.run x',
      ∀ v ∈ c.nodes, u.id ≠ v.id
  root : w.forest.root b ∉ c.nodes

theorem isBlock_of_mem_children (hc : c ∈ b.children) : b.isBlock = true := by
  cases b with
  | block core statement children => rfl
  | _ => exact absurd hc List.not_mem_nil

section Delete

variable (hw : w.Sound) (hb : b ∈ Forest.nodes w.forest) (hc : c ∈ b.children)
include hw hb hc

/-- A child is kept by a deletion, or it is the one that is deleted. -/
theorem kept_of_delete : ∀ u ∈ b.children,
    u ∈ [c] ∨ u ∈ b.children.filter fun v => v.id != c.id := by
  intro u hu
  by_cases hid : u.id = c.id
  · have hin : ∀ v ∈ b.children, v ∈ Forest.nodes w.forest := fun v hv =>
      Forest.mem_nodes_of_child hb hv
    exact .inl (List.mem_singleton.2 (hw.tidy.eq_of_id_eq (hin u hu) (hin c hc) hid))
  · exact .inr (List.mem_filter.2 ⟨hu, by simpa using hid⟩)

/-- A search from a node around the block loses what is in the child. -/
theorem map_id_run_delete (hx : x ∈ Forest.nodes w.forest) (hbx : b ∈ x.nodes) (s : Search) :
    (s.run (x.update b.id (Tree.withChildren fun children =>
      children.filter fun v => v.id != c.id))).map Tree.id =
        ((s.run x).map Tree.id).filter fun id => !c.nodes.any (·.id == id) := by
  have hblock := isBlock_of_mem_children hc
  have hnodup := hw.tidy.nodup_nodes hx
  obtain ⟨l, r, hcontext, hself⟩ := exists_context hblock hnodup hbx
  obtain ⟨before, after, hbefore, hafter, hfound⟩ :=
    hcontext.found s.excludes s.accepts s.accepts_withChildren
  obtain ⟨pre, post, hchildren⟩ := List.append_of_mem hc
  have hinside := hw.tidy.nodup_nodes hb
  rw [b.nodes_eq, List.map_cons, List.nodup_cons, hchildren] at hinside
  -- what is found around the children of the block is not in the child
  have hids := hcontext.ids fun children => children
  rw [hself] at hids
  rw [x.nodes_eq, List.map_cons, List.nodup_cons, hids, List.nodup_append, List.nodup_append]
    at hnodup
  obtain ⟨-, -, ⟨-, -, hr⟩, hl⟩ := hnodup
  have hcin : ∀ v ∈ c.nodes, v.id ∈ (Forest.nodes b.children).map Tree.id := fun v hv =>
    List.mem_map_of_mem (Forest.mem_nodes.2 ⟨c, hc, hv⟩)
  have hkeepl : before.filter (fun id => !c.nodes.any (·.id == id)) = before :=
    Tree.filter_not_in_eq_self fun id hid v hv heq =>
      hl id (hbefore.subset hid) v.id (List.mem_append_left _ (hcin v hv)) heq.symm
  have hkeepr : after.filter (fun id => !c.nodes.any (·.id == id)) = after :=
    Tree.filter_not_in_eq_self fun id hid v hv heq => hr v.id (hcin v hv) id (hafter.subset hid) heq
  have hnow := hfound fun children => children
  rw [hself] at hnow
  rw [s.map_id_run, s.map_id_run]
  by_cases hhidden : s.excludes = true ∧ ∃ v ∈ Forest.nodes x.children,
      v.isActive = false ∧ b ∈ v.nodes
  · rw [(hfound _).2 hhidden, hnow.2 hhidden, List.filter_append, hkeepl, hkeepr]
  · rw [(hfound _).1 hhidden, hnow.1 hhidden, List.filter_append, List.filter_append, hkeepl,
      hkeepr, hchildren, Tree.filter_id_ne hinside.2, Forest.found_delete hinside.2]

/-- What is in the child is in no other tree of the forest after the deletion. -/
theorem id_ne_of_delete (hx : x ∈ Forest.nodes w.forest) (hxc : x ∉ c.nodes) :
    ∀ u ∈ (x.update b.id (Tree.withChildren fun children =>
      children.filter fun v => v.id != c.id)).nodes, ∀ v ∈ c.nodes, u.id ≠ v.id := by
  have hmem := update_mem_of_alters hw hb (isBlock_of_mem_children hc) (kept_of_delete hw hb hc) hx
  have htidy := (hw.alters hb (.delete hc) w.journal).tidy.nodup
  rw [Forest.nodes_append, Forest.nodes_cons, Forest.nodes_nil, List.append_nil] at hmem htidy
  rw [List.map_append, List.nodup_append] at htidy
  rcases List.mem_append.1 hmem with hin | hout
  · -- a node of the number of `x` in the child would be `x`
    have hcin : c ∈ Forest.nodes w.forest := Forest.mem_nodes_of_child hb hc
    have hid := hw.tidy.eq_of_id_eq ((Forest.nodes_sublist _ hcin).subset hin) hx
      (Tree.id_update_withChildren ..)
    exact absurd (hid ▸ hin) hxc
  · exact fun u hu v hv heq => htidy.2.2 v.id (List.mem_map_of_mem hv) u.id
      (List.mem_map_of_mem ((Forest.nodes_sublist _ hout).subset hu)) heq.symm

/-- What is in the child is younger than the root of the block. -/
theorem root_not_mem_of_delete : w.forest.root b ∉ c.nodes := by
  intro hmem
  have hcin : c ∈ Forest.nodes w.forest := Forest.mem_nodes_of_child hb hc
  have hyounger : b.id < c.id := hw.older c hcin b.id (hw.tidy.linked b hb c hc)
  have hle : (w.forest.root b).id ≤ b.id := by
    rw [Forest.root]
    cases hlast : (w.forest.lineage b.core).getLast? with
    | none => exact Nat.le_refl _
    | some top => exact Nat.le_of_lt (hw.lt_of_mem_lineage hb (List.mem_of_getLast? hlast))
  exact absurd (hw.id_le hcin hmem) (Nat.not_le_of_lt (Nat.lt_of_le_of_lt hle hyounger))

end Delete

/-- A deletion takes the child and what is in it out of all searches, for good. -/
theorem searchesLose_of_deleteChild (hw : w.Sound) (hb : b ∈ Forest.nodes w.forest)
    (h : w.deleteChild b child = .ok w') :
    ∃ c ∈ b.children, c.id = child ∧ w.SearchesLose w' b c := by
  have hsound := hw.effect (effect_deleteChild hb h)
  obtain ⟨c, hc, rfl, rfl⟩ := deleteChild_cases h
  have hplace := fun {x} hx => exists_find?_of_alters (x := x) hw hb (isBlock_of_mem_children hc)
    (.delete hc) (kept_of_delete hw hb hc) hx
  refine ⟨c, hc, rfl, fun x hx hbx => ?_, fun x hx hout => ?_, fun later x hx hxc x' hx' s u hu v hv
    heq => ?_, root_not_mem_of_delete hw hb hc⟩
  · obtain ⟨x', hfind, hsame⟩ := hplace hx
    refine ⟨x', hfind, fun s => ?_⟩
    rw [hsame.run, map_id_run_delete hw hb hc hx hbx, List.filter_map]
    rfl
  · obtain ⟨x', hfind, hsame⟩ := hplace hx
    refine ⟨x', hfind, fun s => ?_⟩
    rw [hsame.run, update_of_not_around hw hb hx hout]
  · obtain ⟨x₁, hfind, hsame⟩ := hplace hx
    obtain ⟨hx₁, hid₁⟩ := Forest.mem_nodes_of_find? hfind
    obtain ⟨hxlater, hid⟩ := Forest.mem_nodes_of_find? hx'
    -- what is found later was below the node before, or is new
    obtain ⟨y, hy, hyid, hbelow⟩ := (Succeeds.run hsound later).exists_mem_nodes hsound
      (hsound.run later) hxlater (hid ▸ hw.lt_next x hx)
    obtain rfl := hsound.tidy.eq_of_id_eq hy hx₁ (hyid.trans (hid.trans hid₁.symm))
    have hvin : v ∈ Forest.nodes w.forest :=
      Forest.mem_nodes_of_below hb (Forest.mem_nodes.2 ⟨c, hc, hv⟩)
    obtain ⟨z, hz, hzid⟩ := hbelow u (s.mem_nodes_of_run hu) (heq ▸ hw.lt_next v hvin)
    have hzin : z.id ∈ y.nodes.map Tree.id := List.mem_map_of_mem hz
    rw [hsame.ids] at hzin
    obtain ⟨z', hz', hzid'⟩ := List.mem_map.1 hzin
    exact id_ne_of_delete hw hb hc hx hxc z' hz' v hv (hzid'.trans (hzid.trans heq))

end Workspace

/-! ## Additions -/

/-- Whether a search from `x` finds a node that is new in a block: it is one that the search is for,
and if inactive blocks are left out, it is not one of them and none is between. -/
def Search.Shows (s : Search) (x b new : Tree) : Prop :=
  s.accepts new = true ∧ (s.excludes = true →
    new.isActive = true ∧ ∀ v ∈ x.descendants false, b ∈ v.nodes → v.isActive = true)

namespace Workspace

variable {new : Tree} {index : Nat}

/-- What searches find after a node was added to a block: around the block what they found before,
with the new node at its place in document order if it is one to be found, elsewhere what they found
before. -/
structure SearchesGain (w w' : Workspace) (b new : Tree) (index : Nat) : Prop where
  fresh : ∀ x ∈ Forest.nodes w.forest, x.id ≠ new.id
  place : ∃ b', w'.forest.find? b.id = some b' ∧
    b'.children.map Tree.id = (b.children.map Tree.id).insertIdx index new.id
  around : ∀ x ∈ Forest.nodes w.forest, b ∈ x.nodes →
    ∃ x', w'.forest.find? x.id = some x' ∧ ∃ l r, x.nodes.map Tree.id = l ++ r ∧
      x'.nodes.map Tree.id = l ++ new.id :: r ∧
      ∀ s : Search, ∃ before after, before.Sublist l ∧ after.Sublist r ∧
        (s.run x).map Tree.id = before ++ after ∧
        (s.Shows x b new → (s.run x').map Tree.id = before ++ new.id :: after) ∧
        (¬ s.Shows x b new → (s.run x').map Tree.id = before ++ after)
  elsewhere : ∀ x ∈ Forest.nodes w.forest, b ∉ x.nodes →
    ∃ x', w'.forest.find? x.id = some x' ∧ ∀ s : Search,
      (s.run x').map Tree.id = (s.run x).map Tree.id

/-- A place among the children of a block is a place in document order for every node around it. -/
theorem exists_place_of_insert (hw : w.Sound) (hblock : b.isBlock = true)
    (hx : x ∈ Forest.nodes w.forest) (hbx : b ∈ x.nodes) (hindex : index ≤ b.children.length)
    (hempty : new.children = []) :
    ∃ l r, x.nodes.map Tree.id = l ++ r ∧
      (x.update b.id (Tree.withChildren fun children =>
        children.insertIdx index new)).nodes.map Tree.id = l ++ new.id :: r ∧
      ∀ s : Search, ∃ before after, before.Sublist l ∧ after.Sublist r ∧
        (s.run x).map Tree.id = before ++ after ∧
        (s.Shows x b new → (s.run (x.update b.id (Tree.withChildren fun children =>
          children.insertIdx index new))).map Tree.id = before ++ new.id :: after) ∧
        (¬ s.Shows x b new → (s.run (x.update b.id (Tree.withChildren fun children =>
          children.insertIdx index new))).map Tree.id = before ++ after) := by
  obtain ⟨l, r, hcontext, hself⟩ := exists_context hblock (hw.tidy.nodup_nodes hx) hbx
  obtain ⟨pre, post, hchildren, -, hinsert⟩ := List.exists_of_modifyTailIdx (List.cons new) hindex
  have hinsert : b.children.insertIdx index new = pre ++ new :: post := hinsert
  refine ⟨x.id :: (l ++ (Forest.nodes pre).map Tree.id), (Forest.nodes post).map Tree.id ++ r,
    ?_, ?_, fun s => ?_⟩
  · have hids := hcontext.ids fun children => children
    rw [hself] at hids
    rw [x.nodes_eq, List.map_cons, hids, hchildren, Forest.nodes_append]
    simp
  · rw [Tree.nodes_eq, List.map_cons, Tree.id_update_withChildren, hcontext.ids, hinsert,
      Forest.nodes_append, Forest.nodes_cons, new.nodes_eq, hempty]
    simp
  · obtain ⟨before, after, hbefore, hafter, hfound⟩ :=
      hcontext.found s.excludes s.accepts s.accepts_withChildren
    have hnow := hfound fun children => children
    rw [hself] at hnow
    have hpre := Forest.found_sublist s.excludes s.accepts pre
    have hpost := Forest.found_sublist s.excludes s.accepts post
    simp only [s.map_id_run]
    by_cases hhidden : s.excludes = true ∧ ∃ v ∈ Forest.nodes x.children,
        v.isActive = false ∧ b ∈ v.nodes
    · refine ⟨before, after, (hbefore.trans (List.sublist_append_left ..)).cons _,
        hafter.trans (List.sublist_append_right ..), hnow.2 hhidden, fun hshows => ?_,
        fun _ => (hfound _).2 hhidden⟩
      -- an inactive block is between
      obtain ⟨hexclude, v, hv, hinactive, hbv⟩ := hhidden
      have hactive := (hshows.2 hexclude).2 v (by rwa [Tree.descendants_false]) hbv
      rw [hinactive] at hactive
      simp at hactive
    · refine ⟨before ++ Forest.found s.excludes s.accepts pre,
        Forest.found s.excludes s.accepts post ++ after, (hbefore.append hpre).cons _,
        hpost.append hafter, ?_, fun hshows => ?_, fun hnot => ?_⟩
      · rw [hnow.1 hhidden, hchildren, Forest.found_append]
        simp
      · rw [(hfound _).1 hhidden, hinsert, Forest.found_append, Forest.found_cons new,
          Forest.found_singleton fun hexclude => (hshows.2 hexclude).1, hempty, hshows.1]
        simp
      · -- a new node that is not to be found is no match, or it is inactive itself
        have hnone : Forest.found s.excludes s.accepts [new] = [] := by
          by_cases hleft : s.excludes = true ∧ new.isActive = false
          · rw [hleft.1, Forest.found_inactive hleft.2]
          · have hactive : s.excludes = true → new.isActive = true := fun hexclude => by
              simpa [hexclude] using hleft
            have haccepts : s.accepts new = false := by
              rw [Bool.eq_false_iff]
              refine fun haccepts => hnot ⟨haccepts, fun hexclude => ⟨hactive hexclude, ?_⟩⟩
              intro v hv hbv
              rw [Tree.descendants_false] at hv
              by_contra hinactive
              exact hhidden ⟨hexclude, v, hv, Bool.eq_false_iff.2 hinactive, hbv⟩
            rw [Forest.found_singleton hactive, hempty, haccepts]
            simp
        rw [(hfound _).1 hhidden, hinsert, Forest.found_append, Forest.found_cons new, hnone]
        simp

/-- An addition puts just the new node into searches. -/
theorem searchesGain_of_addChild (hw : w.Sound) (hb : b ∈ Forest.nodes w.forest)
    (hblock : b.isBlock = true) {content : NodeContent} {position : Option Nat}
    (h : w.addChild b content position = .ok (new, w')) :
    w.SearchesGain w' b new (position.getD b.children.length) := by
  obtain ⟨index, rfl, hindex, hnew, rfl⟩ := addChild_cases h
  have hempty : new.children = [] := by rw [hnew, NodeContent.tree_children]
  have hid : new.id = w.next := by
    rw [hnew, Tree.id, NodeContent.tree_core]
    rfl
  have halters : w.Alters b (Tree.withChildren fun children =>
      children.insertIdx (position.getD b.children.length) new) [] (w.next + 1) := by
    rw [hnew]
    exact .add hblock hindex
  have hplace := fun {x} hx => exists_find?_of_alters (x := x) hw hb hblock halters
    (fun u hu => .inr ((List.mem_insertIdx hindex).2 (.inr hu))) hx
  refine ⟨fun x hx => ?_, ?_, fun x hx hbx => ?_, fun x hx hout => ?_⟩
  · rw [hid]
    exact Nat.ne_of_lt (hw.lt_next x hx)
  · obtain ⟨b', hfind, hsame⟩ := hplace hb
    refine ⟨b', hfind, ?_⟩
    rw [hsame.children, Tree.update_self rfl, Tree.withChildren_children hblock,
      List.map_insertIdx]
  · obtain ⟨x', hfind, hsame⟩ := hplace hx
    refine ⟨x', hfind, ?_⟩
    simp only [hsame.ids, hsame.run]
    exact exists_place_of_insert hw hblock hx hbx hindex hempty
  · obtain ⟨x', hfind, hsame⟩ := hplace hx
    refine ⟨x', hfind, fun s => ?_⟩
    rw [hsame.run, update_of_not_around hw hb hx hout]

/-- After any operations, searches see the current tree: a deletion takes the child and what is in
it out of them for good, and an addition puts the new node in at its place, if it is to be found. -/
theorem searches_run {operations : List Operation} (hw : empty.run operations = w)
    (hb : b ∈ Forest.nodes w.forest) :
    (∀ child w', w.deleteChild b child = .ok w' →
      ∃ c ∈ b.children, c.id = child ∧ w.SearchesLose w' b c) ∧
    (b.isBlock = true → ∀ content position new w',
      w.addChild b content position = .ok (new, w') →
        w.SearchesGain w' b new (position.getD b.children.length)) := by
  have hsound : w.Sound := hw ▸ Sound.empty.run operations
  exact ⟨fun child w' h => searchesLose_of_deleteChild hsound hb h,
    fun hblock content position new w' h => searchesGain_of_addChild hsound hb hblock h⟩

/-- A block with a directive in it is deleted from the block around it, or a directive is added
before it. -/
theorem searches_run_nested :
    ∃ document w b c w₁ new w₂,
      Fragment.read ⟨⟨"site.conf"⟩, "<A>\n<B>\nC 1\n</B>\n</A>\nC 2\n"⟩ = .ok document ∧
      w = empty.run [
        .construct ⟨none, none, false, some (.parsed document), none⟩ (.block "" []) true] ∧
      w.forest.find? 1 = some b ∧
      w.deleteChild b 2 = .ok w₁ ∧ c ∈ b.children ∧ c.id = 2 ∧ w.SearchesLose w₁ b c ∧
      w.addChild b (.directive "c" []) (some 0) = .ok (new, w₂) ∧ w.SearchesGain w₂ b new 0 ∧
      ([w, w₁, w₂].map fun w => (w.forest.find? 0).map fun root =>
        (root.findDirectives "C" true).map Tree.id) = [some [3, 4], some [4], some [5, 3, 4]] := by
  have hfacts : ((Fragment.read ⟨⟨"site.conf"⟩,
        "<A>\n<B>\nC 1\n</B>\n</A>\nC 2\n"⟩).toOption.any fun document =>
      let w := empty.run [
        .construct ⟨none, none, false, some (.parsed document), none⟩ (.block "" []) true]
      (w.forest.find? 1).any fun b => (w.deleteChild b 2).toOption.any fun w₁ =>
        (w.addChild b (.directive "c" []) (some 0)).toOption.any fun added =>
          b.isBlock && ([w, w₁, added.2].map fun w => (w.forest.find? 0).map fun root =>
            (root.findDirectives "C" true).map Tree.id) ==
              [some [3, 4], some [4], some [5, 3, 4]]) = true := by
    decide +kernel
  obtain ⟨document, hread, hfacts⟩ := (Option.any_eq_true ..).1 hfacts
  simp only at hfacts
  generalize hw : empty.run _ = w at hfacts
  obtain ⟨b, hb, hfacts⟩ := (Option.any_eq_true ..).1 hfacts
  obtain ⟨w₁, hdelete, hfacts⟩ := (Option.any_eq_true ..).1 hfacts
  obtain ⟨⟨new, w₂⟩, hadd, hfacts⟩ := (Option.any_eq_true ..).1 hfacts
  obtain ⟨hblock, hfound⟩ := Bool.and_eq_true_iff.1 hfacts
  have hruns := searches_run hw (Forest.mem_nodes_of_find? hb).1
  obtain ⟨c, hc, hid, hlose⟩ := hruns.1 2 w₁ (eq_ok_of_toOption hdelete)
  exact ⟨document, w, b, c, w₁, new, w₂, eq_ok_of_toOption hread, hw.symm, hb,
    eq_ok_of_toOption hdelete, hc, hid, hlose, eq_ok_of_toOption hadd,
    hruns.2 hblock _ _ new w₂ (eq_ok_of_toOption hadd), beq_iff_eq.1 hfound⟩

end Workspace

end HttpdConf
