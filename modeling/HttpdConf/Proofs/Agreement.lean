import HttpdConf.Proofs.Saves

/-!
# Trees that agree

A block that was read and is not dirty is copied: its text is the one it was read from, whatever
is inside. Two trees that differ in their flags only agree if each block that is copied in the
first one is rendered to the same text in the second one. An edit makes the blocks around it dirty
in both, so trees that agree still do so after the same edits, and are rendered alike.

## Main definitions

* `Tree.Agrees`, `Sheet.Agrees`, `Desk.Agrees`

## Main results

* `Tree.Agrees.renderAfter_eq`: trees that agree are rendered alike
* `Sheet.Agrees.edit`, `Desk.Agrees.move`: what agrees still does so after a move
* `Desk.Agrees.finalText_eq`: the same text is stored in the end
-/

namespace HttpdConf

/-! ## What blocks are rendered to -/

section

variable {depth : Nat} {core : Core} {statement : Statement} {children : Forest} {t : Tree}
  {path : Path}

theorem Core.inner_eq {x y : Core} (h : x.origin = y.origin) (depth : Nat) :
    x.inner depth = y.inner depth := by
  rw [Core.inner, Core.inner, h]

theorem Core.opening_eq {x y : Core} (h : x.origin = y.origin) (statement : Statement) :
    x.opening statement = y.opening statement := by
  rw [Core.opening, Core.opening, Core.keeps, Core.keeps, h]

theorem Core.closing_eq {x y : Core} (h : x.origin = y.origin) (depth : Nat)
    (statement : Statement) : x.closing depth statement = y.closing depth statement := by
  rw [Core.closing, Core.closing, h]

namespace Tree.IsGrown

theorem isHeaded (h : (Tree.block core statement children).IsGrown path) : core.IsHeaded :=
  ⟨h.isDocument_eq, fun hparsed => (h.hasTags rfl hparsed).header_ne⟩

theorem opening_ne (h : (Tree.block core statement children).IsGrown path) :
    (core.opening statement).toList ≠ [] :=
  h.isHeaded.opening_ne statement

/-- A rebuilt block ends in the middle of a line. -/
theorem after_closing (h : (Tree.block core statement children).IsGrown path)
    (e : Ending) : e.after (core.closing depth statement) = .midLine := by
  have hdocument : core.origin.isDocument = false := h.isDocument_eq
  rw [Core.closing, hdocument, if_neg (by simp)]
  split
  · rw [Ending.after_append _ _ ">"]
    rfl
  · rename_i hsynthetic
    have htags := h.hasTags rfl (by simpa [Tree.core] using hsynthetic)
    simp only [Tree.core] at htags
    rw [Ending.after_append, Ending.after, htags.footer_getLast?]
    rfl

/-- What a node is rendered to does not depend on the text before it. -/
theorem renderAfter_eq (h : t.IsGrown path) (before before' : Ending) :
    t.renderAfter depth before = t.renderAfter depth before' := by
  cases t with
  | comment core text => simp [Tree.renderAfter]
  | directive core statement => simp [Tree.renderAfter]
  | block core statement children => exact h.isHeaded.renderAfter_block before before'

end Tree.IsGrown

end

/-! ## Trees that agree -/

variable {t u : Tree}

/-- The nodes differ in their flags only, and where the first has changes, so has the second. -/
structure Core.Agrees (x y : Core) : Prop where
  clean_eq : x.clean = y.clean
  dirty : x.dirty = true → y.dirty = true

theorem Core.Agrees.origin_eq {x y : Core} (h : x.Agrees y) : x.origin = y.origin := by
  change x.clean.origin = y.clean.origin
  rw [h.clean_eq]

theorem Core.Agrees.isRebuilt {x y : Core} (h : x.Agrees y) (hx : x.isRebuilt = true) :
    y.isRebuilt = true := by
  have hdirty := h.dirty
  simp only [Core.isRebuilt, h.origin_eq, Bool.or_eq_true] at hx ⊢
  exact hx.imp_right hdirty

mutual
/-- The trees differ in their flags only, and where a block of the first is copied, the second one
is rendered to the same text. -/
def Tree.Agrees (depth : Nat) : Tree → Tree → Prop
  | .comment x text, u => ∃ y, u = .comment y text ∧ x.Agrees y
  | .directive x statement, u => ∃ y, u = .directive y statement ∧ x.Agrees y
  | .block x statement children, u => ∃ y children', u = .block y statement children' ∧
      x.Agrees y ∧
      (x.isRebuilt = false → ∀ before, u.renderAfter depth before = x.origin.fragment.text) ∧
      Forest.Agrees (x.inner depth) children children'

def Forest.Agrees (depth : Nat) : Forest → Forest → Prop
  | [], g => g = []
  | t :: f, g => ∃ u g', g = u :: g' ∧ t.Agrees depth u ∧ Forest.Agrees depth f g'
end

mutual
/-- Trees that agree differ in their flags only. -/
theorem Tree.Agrees.settled_eq {depth : Nat} (t : Tree) {u : Tree} (h : t.Agrees depth u) :
    t.settled = u.settled := by
  match t with
  | .comment x text =>
    rw [Tree.Agrees] at h
    obtain ⟨y, rfl, hcore⟩ := h
    exact congrArg (Tree.comment · text) hcore.clean_eq
  | .directive x statement =>
    rw [Tree.Agrees] at h
    obtain ⟨y, rfl, hcore⟩ := h
    exact congrArg (Tree.directive · statement) hcore.clean_eq
  | .block x statement children =>
    rw [Tree.Agrees] at h
    obtain ⟨y, children', rfl, hcore, -, hchildren⟩ := h
    rw [Tree.settled_block, Tree.settled_block, hcore.clean_eq,
      Forest.Agrees.settled_eq children hchildren]

theorem Forest.Agrees.settled_eq {depth : Nat} (f : Forest) {g : Forest}
    (h : Forest.Agrees depth f g) : f.map Tree.settled = g.map Tree.settled := by
  match f with
  | [] =>
    rw [Forest.Agrees] at h
    rw [h]
  | t :: f =>
    rw [Forest.Agrees] at h
    obtain ⟨u, g, rfl, ht, hf⟩ := h
    rw [List.map_cons, List.map_cons, Tree.Agrees.settled_eq t ht, Forest.Agrees.settled_eq f hf]
end

theorem Tree.Agrees.core {depth : Nat} (h : t.Agrees depth u) : t.core.Agrees u.core := by
  cases t <;> rw [Tree.Agrees] at h
  · obtain ⟨y, rfl, hcore⟩ := h
    exact hcore
  · obtain ⟨y, rfl, hcore⟩ := h
    exact hcore
  · obtain ⟨y, children', rfl, hcore, -⟩ := h
    exact hcore

theorem Tree.Agrees.id_eq {depth : Nat} (h : t.Agrees depth u) : t.id = u.id := by
  change t.core.clean.id = u.core.clean.id
  rw [h.core.clean_eq]

mutual
/-- Trees that agree are rendered to the same text. -/
theorem Tree.Agrees.renderAfter_eq {depth : Nat} (t : Tree) {u : Tree} (h : t.Agrees depth u)
    (before : Ending) : t.renderAfter depth before = u.renderAfter depth before := by
  match t with
  | .comment x text =>
    rw [Tree.Agrees] at h
    obtain ⟨y, rfl, hcore⟩ := h
    rw [Tree.renderAfter, Tree.renderAfter, hcore.origin_eq]
  | .directive x statement =>
    rw [Tree.Agrees] at h
    obtain ⟨y, rfl, hcore⟩ := h
    rw [Tree.renderAfter, Tree.renderAfter, Core.keeps, Core.keeps, hcore.origin_eq]
  | .block x statement children =>
    rw [Tree.Agrees] at h
    obtain ⟨y, children', rfl, hcore, hcopied, hchildren⟩ := h
    cases hx : x.isRebuilt with
    | true =>
      rw [Tree.renderAfter_of_rebuilt hx, Tree.renderAfter_of_rebuilt (hcore.isRebuilt hx),
        Core.opening_eq hcore.origin_eq, Core.closing_eq hcore.origin_eq,
        Forest.Agrees.renderAfter_eq children hchildren, Core.inner_eq hcore.origin_eq]
    | false => rw [Tree.renderAfter_of_copied hx, hcopied hx]

theorem Forest.Agrees.renderAfter_eq {depth : Nat} (f : Forest) {g : Forest}
    (h : Forest.Agrees depth f g) (before : Ending) :
    Forest.renderAfter depth before f = Forest.renderAfter depth before g := by
  match f with
  | [] =>
    rw [Forest.Agrees] at h
    rw [h]
  | t :: f =>
    rw [Forest.Agrees] at h
    obtain ⟨u, g, rfl, ht, hf⟩ := h
    rw [Forest.renderAfter, Forest.renderAfter]
    simp only [ht.core.origin_eq, Tree.Agrees.renderAfter_eq t ht,
      Forest.Agrees.renderAfter_eq f hf]
end

theorem Core.Agrees.refl (x : Core) : x.Agrees x := ⟨rfl, fun h => h⟩

mutual
theorem Tree.Agrees.refl {depth : Nat} (t : Tree) : t.Agrees depth t := by
  match t with
  | .comment x text =>
    rw [Tree.Agrees]
    exact ⟨x, rfl, .refl x⟩
  | .directive x statement =>
    rw [Tree.Agrees]
    exact ⟨x, rfl, .refl x⟩
  | .block x statement children =>
    rw [Tree.Agrees]
    exact ⟨x, children, rfl, .refl x, Tree.renderAfter_of_copied, Forest.Agrees.refl children⟩

theorem Forest.Agrees.refl {depth : Nat} (f : Forest) : Forest.Agrees depth f f := by
  match f with
  | [] => rw [Forest.Agrees]
  | t :: f =>
    rw [Forest.Agrees]
    exact ⟨t, f, rfl, Tree.Agrees.refl t, Forest.Agrees.refl f⟩
end

/-- Which numbers there are does not depend on flags. -/
theorem Tree.any_id_settled (ts : List Tree) (id : NodeId) :
    (ts.map Tree.settled).any (·.id == id) = ts.any (·.id == id) := by
  rw [List.any_map]
  exact congrArg (List.any _) (funext fun u => by simp [Tree.settled_id])

theorem Forest.any_id_eq {f g : Forest} (h : f.map Tree.settled = g.map Tree.settled)
    (id : NodeId) :
    (Forest.nodes f).any (·.id == id) = (Forest.nodes g).any (·.id == id) := by
  rw [← Tree.any_id_settled, ← Forest.nodes_settled, h, Forest.nodes_settled, Tree.any_id_settled]

/-- Two nodes with changes of their own agree when their children do. -/
theorem Tree.Agrees.touched_block {depth : Nat} {x y : Core} {statement : Statement}
    {children children' : Forest} (hcore : x.clean = y.clean)
    (hchildren : Forest.Agrees (x.inner depth) children children') :
    (Tree.block x.touched statement children).Agrees depth
      (.block y.touched statement children') := by
  rw [Tree.Agrees]
  refine ⟨_, _, rfl, ⟨hcore, fun _ => rfl⟩, fun hcopied => ?_, hchildren⟩
  simp [Core.isRebuilt, Core.touched] at hcopied

mutual
/-- The same change of two trees leaves them in agreement, if it does so with the changed node. -/
theorem Tree.Agrees.touch {id : NodeId} {g : Tree → Tree} {depth : Nat}
    (hg : ∀ (depth : Nat) (t u : Tree), t.Agrees depth u →
      ((g t).mapCore Core.touched).Agrees depth ((g u).mapCore Core.touched)) (t : Tree) {u : Tree}
    (h : t.Agrees depth u) : (t.touch id g).Agrees depth (u.touch id g) := by
  by_cases hid : t.id = id
  · rw [Tree.touch_self hid, Tree.touch_self (h.id_eq ▸ hid)]
    exact hg depth t u h
  · have hself : (t.core.id == id) = false := by simpa [Tree.id] using hid
    have hself' : (u.core.id == id) = false := beq_false_of_ne fun heq => hid (h.id_eq.trans heq)
    have hparts := h
    match t with
    | .comment x text =>
      rw [Tree.Agrees] at hparts
      obtain ⟨y, rfl, -⟩ := hparts
      simp only [Tree.core] at hself hself'
      rwa [Tree.touch, Tree.touch, hself, hself', if_neg (by simp), if_neg (by simp)]
    | .directive x statement =>
      rw [Tree.Agrees] at hparts
      obtain ⟨y, rfl, -⟩ := hparts
      simp only [Tree.core] at hself hself'
      rwa [Tree.touch, Tree.touch, hself, hself', if_neg (by simp), if_neg (by simp)]
    | .block x statement children =>
      rw [Tree.Agrees] at hparts
      obtain ⟨y, children', rfl, hcore, -, hchildren⟩ := hparts
      simp only [Tree.core] at hself hself'
      rw [Tree.touch, Tree.touch, hself, hself', Forest.any_id_eq hchildren.settled_eq]
      simp only [Bool.false_eq_true, if_false]
      split
      · -- both blocks are dirty now, so neither is copied and only what is inside matters
        rw [Tree.Agrees]
        refine ⟨_, _, rfl, ⟨hcore.clean_eq, fun _ => rfl⟩, fun hcopied => ?_,
          Forest.Agrees.touch hg children hchildren⟩
        simp [Core.isRebuilt, Core.stirred] at hcopied
      · exact h

theorem Forest.Agrees.touch {id : NodeId} {g : Tree → Tree} {depth : Nat}
    (hg : ∀ (depth : Nat) (t u : Tree), t.Agrees depth u →
      ((g t).mapCore Core.touched).Agrees depth ((g u).mapCore Core.touched)) (f : Forest)
    {f' : Forest} (h : Forest.Agrees depth f f') :
    Forest.Agrees depth (Forest.touch id g f) (Forest.touch id g f') := by
  match f with
  | [] =>
    rw [Forest.Agrees] at h
    rw [h, Forest.touch]
    exact Forest.Agrees.refl []
  | t :: f =>
    rw [Forest.Agrees] at h
    obtain ⟨u, f', rfl, ht, hf⟩ := h
    rw [Forest.touch, Forest.touch, Forest.Agrees]
    exact ⟨_, _, rfl, Tree.Agrees.touch hg t ht, Forest.Agrees.touch hg f hf⟩
end

/-! ## Edits of trees that agree -/

theorem Forest.Agrees.insertIdx {depth : Nat} (new : Tree) {f g : Forest} (index : Nat)
    (h : Forest.Agrees depth f g) :
    Forest.Agrees depth (f.insertIdx index new) (g.insertIdx index new) := by
  induction index generalizing f g with
  | zero =>
    rw [List.insertIdx_zero, List.insertIdx_zero, Forest.Agrees]
    exact ⟨new, g, rfl, .refl new, h⟩
  | succ index ih =>
    cases f with
    | nil =>
      rw [Forest.Agrees] at h
      rw [h]
      exact .refl _
    | cons t f =>
      rw [Forest.Agrees] at h
      obtain ⟨u, g, rfl, ht, hf⟩ := h
      rw [List.insertIdx_succ_cons, List.insertIdx_succ_cons, Forest.Agrees]
      exact ⟨u, _, rfl, ht, ih hf⟩

theorem Forest.Agrees.filter {depth : Nat} (p : NodeId → Bool) {f g : Forest}
    (h : Forest.Agrees depth f g) :
    Forest.Agrees depth (f.filter fun t => p t.id) (g.filter fun t => p t.id) := by
  induction f generalizing g with
  | nil =>
    rw [Forest.Agrees] at h
    rw [h]
    exact .refl _
  | cons t f ih =>
    rw [Forest.Agrees] at h
    obtain ⟨u, g, rfl, ht, hf⟩ := h
    rw [List.filter_cons, List.filter_cons, ht.id_eq]
    split
    · rw [Forest.Agrees]
      exact ⟨u, _, rfl, ht, ih hf⟩
    · exact ih hf

/-- Nodes without children stay in agreement when both are changed. -/
theorem Tree.Agrees.touched {depth : Nat} (h : t.Agrees depth u) :
    (t.mapCore Core.touched).Agrees depth (u.mapCore Core.touched) := by
  cases t with
  | comment x text =>
    rw [Tree.Agrees] at h
    obtain ⟨y, rfl, hcore⟩ := h
    rw [Tree.mapCore, Tree.mapCore, Tree.Agrees]
    exact ⟨_, rfl, hcore.clean_eq, fun _ => rfl⟩
  | directive x statement =>
    rw [Tree.Agrees] at h
    obtain ⟨y, rfl, hcore⟩ := h
    rw [Tree.mapCore, Tree.mapCore, Tree.Agrees]
    exact ⟨_, rfl, hcore.clean_eq, fun _ => rfl⟩
  | block x statement children =>
    rw [Tree.Agrees] at h
    obtain ⟨y, children', rfl, hcore, -, hchildren⟩ := h
    exact .touched_block hcore.clean_eq hchildren

theorem Tree.Agrees.withChildren {depth : Nat} {k : Forest → Forest}
    (hk : ∀ (depth : Nat) (f g : Forest), Forest.Agrees depth f g → Forest.Agrees depth (k f) (k g))
    (h : t.Agrees depth u) :
    ((t.withChildren k).mapCore Core.touched).Agrees depth
      ((u.withChildren k).mapCore Core.touched) := by
  cases t with
  | comment x text =>
    have htouched := h.touched
    rw [Tree.Agrees] at h
    obtain ⟨y, rfl, -⟩ := h
    exact htouched
  | directive x statement =>
    have htouched := h.touched
    rw [Tree.Agrees] at h
    obtain ⟨y, rfl, -⟩ := h
    exact htouched
  | block x statement children =>
    rw [Tree.Agrees] at h
    obtain ⟨y, children', rfl, hcore, -, hchildren⟩ := h
    exact .touched_block hcore.clean_eq (hk _ _ _ hchildren)

theorem Tree.Agrees.mapStatement {depth : Nat} {k : Statement → Statement} (h : t.Agrees depth u) :
    ((t.mapStatement k).mapCore Core.touched).Agrees depth
      ((u.mapStatement k).mapCore Core.touched) := by
  cases t with
  | comment x text =>
    have htouched := h.touched
    rw [Tree.Agrees] at h
    obtain ⟨y, rfl, -⟩ := h
    exact htouched
  | directive x statement =>
    rw [Tree.Agrees] at h
    obtain ⟨y, rfl, hcore⟩ := h
    rw [Tree.mapStatement, Tree.mapStatement, Tree.mapCore, Tree.mapCore, Tree.Agrees]
    exact ⟨_, rfl, hcore.clean_eq, fun _ => rfl⟩
  | block x statement children =>
    rw [Tree.Agrees] at h
    obtain ⟨y, children', rfl, hcore, -, hchildren⟩ := h
    exact .touched_block hcore.clean_eq hchildren

/-! ## Sheets and desks that agree -/

@[simp]
theorem Tree.settled_name (t : Tree) : t.settled.name = t.name := by
  cases t <;> rfl

/-- The trees of the sheets differ in flags only, and are rendered alike from now on. -/
structure Sheet.Agrees (s s' : Sheet) : Prop where
  tree : s.tree.Agrees 0 s'.tree
  next_eq : s.next = s'.next

namespace Sheet.Agrees

variable {s s' : Sheet} {id : NodeId}

/-- A node is found on both sheets or on none. -/
theorem find? (h : s.Agrees s') (id : NodeId) :
    (s.find? id = none ∧ s'.find? id = none) ∨
      ∃ t u, s.find? id = some t ∧ s'.find? id = some u ∧ t.settled = u.settled := by
  have hfind : ∀ s : Sheet, (s.find? id).map Tree.settled =
      s.tree.settled.nodes.find? (·.id == id) := by
    intro s
    rw [Tree.nodes_settled, List.find?_map, Sheet.find?]
    congr 2
    exact funext fun u => by simp [Tree.settled_id]
  have heq : (s.find? id).map Tree.settled = (s'.find? id).map Tree.settled := by
    rw [hfind, hfind, h.tree.settled_eq]
  cases ht : s.find? id with
  | none => exact .inl ⟨rfl, by simpa [ht] using heq.symm⟩
  | some t =>
    rw [ht, Option.map_some] at heq
    obtain ⟨u, hu, heq⟩ := Option.map_eq_some_iff.1 heq.symm
    exact .inr ⟨t, u, rfl, hu, heq.symm⟩

/-- The same change of both sheets. -/
theorem touch (h : s.Agrees s') {g : Tree → Tree} {n n' : NodeId} (hn : n = n')
    (hg : ∀ (depth : Nat) (t u : Tree), t.Agrees depth u →
      ((g t).mapCore Core.touched).Agrees depth ((g u).mapCore Core.touched)) :
    Agrees ⟨s.tree.touch id g, n⟩ ⟨s'.tree.touch id g, n'⟩ :=
  ⟨h.tree.touch hg, hn⟩

/-- An edit succeeds on both sheets or on none, and leaves them in agreement. -/
theorem edit (h : s.Agrees s') (e : Edit) :
    Option.Rel Agrees (s.edit e) (s'.edit e) := by
  cases e with
  | look blocks => exact .some h
  | add block content position =>
    rw [Sheet.edit, Sheet.edit]
    obtain ⟨hs, hs'⟩ | ⟨b, b', hs, hs', hsettled⟩ := h.find? block
    · rw [hs, hs']
      exact .none
    · -- the edit depends on nothing but what both blocks have in common
      have hblock : b.isBlock = b'.isBlock := by
        rw [← Tree.settled_isBlock, hsettled, Tree.settled_isBlock]
      have hlength : b.children.length = b'.children.length := by
        rw [← List.length_map Tree.settled, ← Tree.settled_children, hsettled,
          Tree.settled_children, List.length_map]
      have hcore : b.core.child s.next = b'.core.child s'.next := by
        change b.core.clean.child s.next = b'.core.clean.child s'.next
        rw [← Tree.settled_core, hsettled, Tree.settled_core, h.next_eq]
      simp only [hs, hs', hblock, hlength, hcore]
      split
      · exact .some (h.touch (by rw [h.next_eq]) fun _ _ _ ht =>
          ht.withChildren fun _ _ _ hf => hf.insertIdx _ _)
      · exact .none
  | delete block child =>
    rw [Sheet.edit, Sheet.edit]
    obtain ⟨hs, hs'⟩ | ⟨b, b', hs, hs', hsettled⟩ := h.find? block
    · rw [hs, hs']
      exact .none
    · have hany : b.children.any (·.id == child) = b'.children.any (·.id == child) := by
        rw [← Tree.any_id_settled, ← Tree.settled_children, hsettled, Tree.settled_children,
          Tree.any_id_settled]
      simp only [hs, hs', hany]
      split
      · exact .some (h.touch h.next_eq fun _ _ _ ht =>
          ht.withChildren fun _ _ _ hf => hf.filter (· != child))
      · exact .none
  | setParameters node parameters =>
    rw [Sheet.edit, Sheet.edit]
    obtain ⟨hs, hs'⟩ | ⟨t, t', hs, hs', hsettled⟩ := h.find? node
    · rw [hs, hs']
      exact .none
    · have hname : t.name = t'.name := by
        rw [← Tree.settled_name, hsettled, Tree.settled_name]
      simp only [hs, hs', hname]
      split
      · exact .none
      · exact .some (h.touch h.next_eq fun _ _ _ ht => ht.mapStatement)

end Sheet.Agrees

namespace Desk

variable {d d' : Desk}

/-- The sheets agree, and what the first one has no changes of is stored when the second one is
saved. -/
structure Agrees (d d' : Desk) : Prop where
  sheet : d.sheet.Agrees d'.sheet
  stored : d.sheet.tree.core.dirty = false → d.stored = d'.saved.stored

theorem Agrees.refl (d : Desk) : d.Agrees d :=
  ⟨⟨.refl _, rfl⟩, fun hclean => by simp [saved, hclean]⟩

/-- A save makes desks that agree equal. -/
theorem Agrees.saved_eq (h : d.Agrees d') : d.saved = d'.saved := by
  refine Desk.ext ?_ ?_
  · simp only [saved, h.sheet.tree.settled_eq, h.sheet.next_eq]
  · cases hdirty : d.sheet.tree.core.dirty with
    -- both have changes, and the same text is stored
    | true =>
      simp only [saved, hdirty, h.sheet.tree.core.dirty hdirty, if_true,
        h.sheet.tree.renderAfter_eq]
    | false =>
      rw [← h.stored hdirty]
      simp [saved, hdirty]

/-- A move succeeds on both desks or on none, and leaves them in agreement. -/
theorem Agrees.move (h : d.Agrees d') (m : Move) : Option.Rel Agrees (d.move m) (d'.move m) := by
  cases m with
  | save =>
    rw [Desk.move, Desk.move, h.saved_eq]
    exact .some (.refl _)
  | edit e =>
    have hrel := h.sheet.edit e
    rw [Desk.move, Desk.move]
    cases hs : d.sheet.edit e with
    | none =>
      rw [hs] at hrel
      cases hs' : d'.sheet.edit e with
      | none => exact .none
      | some s' => rw [hs'] at hrel; cases hrel
    | some s =>
      rw [hs] at hrel
      cases hs' : d'.sheet.edit e with
      | none => rw [hs'] at hrel; cases hrel
      | some s' =>
        rw [hs'] at hrel
        cases hrel with
        | some hagrees =>
          refine .some ⟨hagrees, fun hclean => ?_⟩
          -- an edit of a node leaves changes behind, so only looking at nodes is left
          rcases Sheet.look_or_dirty hs with ⟨blocks, rfl⟩ | hdirty
          · obtain rfl := Option.some.inj hs
            obtain rfl := Option.some.inj hs'
            exact h.stored hclean
          · exact absurd hdirty (by simp [show s.tree.core.dirty = false from hclean])

/-- Whatever is done on desks that agree, the same text is stored in the end. -/
theorem Agrees.finalText_eq (h : d.Agrees d') (later : List Move) :
    d.finalText later = d'.finalText later := by
  have hrel := rel_foldlM (R := Agrees) (fun m hagrees => hagrees.move m) h later
  rw [finalText, finalText]
  generalize later.foldlM Desk.move d = x at hrel ⊢
  generalize later.foldlM Desk.move d' = y at hrel ⊢
  cases hrel with
  | none => rfl
  | some hagrees => rw [Option.map_some, Option.map_some, hagrees.saved_eq]

end Desk

end HttpdConf
