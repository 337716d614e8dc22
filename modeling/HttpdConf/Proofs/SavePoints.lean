import HttpdConf.Proofs.Agreement

/-!
# Saving in between

A save forgets which blocks have changes, so a block that was read is copied from then on until it
is edited again. That does not show if the block is rendered to the text it was read from anyway.
If it is not, the changes in the block were saved once, and are missing from the next save.

## Main definitions

* `Tree.isFaithful`: all blocks that were read are rendered to the text they were read from
* `SavesFaithfully`: all saves of a run are made when all blocks are faithful

## Main results

* `Desk.agrees_saved`: a save of faithful blocks does not show
* `Tree.exists_note_ne`: where a block is not faithful, an added comment tells whether there was a
  save
* `finalText_saves`: saves can be left out just when all blocks are faithful
-/

namespace HttpdConf

/-! ## Faithful blocks -/

mutual
/-- All blocks that were read are rendered to the text they were read from. -/
def Tree.isFaithful (depth : Nat) : Tree → Bool
  | .comment _ _ => true
  | .directive _ _ => true
  | .block core statement children =>
    (core.origin.synthetic ||
      (Tree.block core statement children).renderAfter depth .nothing ==
        core.origin.fragment.text) &&
      Forest.isFaithful (depth + 1) children

def Forest.isFaithful (depth : Nat) : Forest → Bool
  | [] => true
  | t :: rest => t.isFaithful depth && Forest.isFaithful depth rest
end

mutual
theorem Tree.isFaithful_forget {depth : Nat} (t : Tree) :
    t.forget.isFaithful depth = t.isFaithful depth := by
  match t with
  | .comment core text => rfl
  | .directive core statement => rfl
  | .block core statement children =>
    rw [Tree.forget_block, Tree.isFaithful, Tree.isFaithful, ← Tree.forget_block,
      Tree.renderAfter_forget, Forest.isFaithful_forget children]

theorem Forest.isFaithful_forget {depth : Nat} (f : Forest) :
    Forest.isFaithful depth (f.map Tree.forget) = Forest.isFaithful depth f := by
  match f with
  | [] => rfl
  | t :: f =>
    rw [List.map_cons, Forest.isFaithful, Forest.isFaithful, Tree.isFaithful_forget t,
      Forest.isFaithful_forget f]
end

variable {depth : Nat} {path : Path}

mutual
/-- Forgetting the changes of faithful blocks does not show. -/
theorem Tree.agrees_settled {depth : Nat} (t : Tree) (hgrown : ∀ u ∈ t.nodes, u.IsGrown path)
    (h : t.isFaithful depth = true) : t.settled.Agrees depth t := by
  have hself := hgrown t t.self_mem_nodes
  match t with
  | .comment core text =>
    change Tree.Agrees depth (.comment core.clean text) _
    rw [Tree.Agrees]
    exact ⟨core, rfl, rfl, by simp [Core.clean]⟩
  | .directive core statement =>
    change Tree.Agrees depth (.directive core.clean statement) _
    rw [Tree.Agrees]
    exact ⟨core, rfl, rfl, by simp [Core.clean]⟩
  | .block core statement children =>
    have hdocument : core.origin.isDocument = false := hself.isDocument_eq
    have hinner : core.clean.inner depth = depth + 1 := by
      simp [Core.inner, Core.clean, hdocument]
    rw [Tree.isFaithful, Bool.and_eq_true] at h
    rw [Tree.settled_block, Tree.Agrees, hinner]
    refine ⟨core, children, rfl, ⟨rfl, by simp [Core.clean]⟩, fun hcopied before => ?_,
      Forest.agrees_settled children (fun u hu => hgrown u (Tree.mem_nodes_of_mem_children hu)) h.2⟩
    -- a block that is copied without its flags was read, so it is faithful by itself
    have hparsed : core.origin.synthetic = false := by simp_all [Core.isRebuilt, Core.clean]
    rw [hself.renderAfter_eq before .nothing]
    change _ = core.origin.fragment.text
    simpa [hparsed] using h.1

theorem Forest.agrees_settled {depth : Nat} (f : Forest)
    (hgrown : ∀ u ∈ Forest.nodes f, u.IsGrown path) (h : Forest.isFaithful depth f = true) :
    Forest.Agrees depth (f.map Tree.settled) f := by
  match f with
  | [] => exact .refl []
  | t :: f =>
    rw [Forest.isFaithful, Bool.and_eq_true] at h
    rw [List.map_cons, Forest.Agrees]
    exact ⟨t, f, rfl, Tree.agrees_settled t (fun u hu => hgrown u (by simp [hu])) h.1,
      Forest.agrees_settled f (fun u hu => hgrown u (by simp [hu])) h.2⟩
end

/-- A save of a document with faithful blocks does not show. -/
theorem Desk.agrees_saved {document : Fragment} {d : Desk} (hkept : d.sheet.tree.IsKept document)
    (hkind : document.kind = .document) (h : Forest.isFaithful 0 d.sheet.tree.children = true) :
    d.saved.Agrees d := by
  obtain ⟨core, children, standing, htree, horigin, -, hgrown⟩ := hkept.isDocumentWith
  have hdocument : core.origin.isDocument = true := by rw [horigin, Origin.isDocument_parsed hkind]
  rw [htree] at h
  refine ⟨⟨?_, rfl⟩, fun _ => rfl⟩
  change d.sheet.tree.settled.Agrees 0 d.sheet.tree
  rw [htree, Tree.settled_block, Tree.Agrees]
  refine ⟨core, children, rfl, ⟨rfl, by simp [Core.clean]⟩, fun hcopied => ?_, ?_⟩
  · simp [Core.isRebuilt, Core.clean, hdocument] at hcopied
  · have hinner : core.clean.inner 0 = 0 := by simp [Core.inner, Core.clean, hdocument]
    rw [hinner]
    exact Forest.agrees_settled children hgrown h

/-! ## Blocks that are not faithful -/

/-- Texts are equal if they are told apart neither before one mark nor before another one. -/
theorem eq_of_append_marked {x y s r r' q q' : List Char} {a b : Char} (hab : a ≠ b)
    (ha : x ++ (s ++ a :: r) = y ++ (s ++ a :: r'))
    (hb : x ++ (s ++ b :: q) = y ++ (s ++ b :: q')) : x = y := by
  -- a shorter text has the mark at a place where the longer one has the same letter with each mark
  have hlength : ∀ {x y r r' q q' : List Char}, x ++ (s ++ a :: r) = y ++ (s ++ a :: r') →
      x ++ (s ++ b :: q) = y ++ (s ++ b :: q') → ¬ x.length < y.length := by
    intro x y r r' q q' ha hb hlt
    have hletter : ∀ {c : Char} {r r' : List Char}, x ++ (s ++ c :: r) = y ++ (s ++ c :: r') →
        some c = (y ++ s)[(x ++ s).length]? := by
      intro c r r' hc
      rw [← List.append_assoc, ← List.append_assoc] at hc
      have hget := congrArg (·[(x ++ s).length]?) hc
      have hlt' : (x ++ s).length < (y ++ s).length := by simpa using hlt
      simpa only [List.getElem?_concat_length, List.getElem?_append_right (Nat.le_refl _),
        Nat.sub_self, List.getElem?_cons_zero, List.getElem?_append_left hlt'] using hget
    exact hab (Option.some.inj ((hletter ha).trans (hletter hb).symm))
  have heq : x.length = y.length :=
    Nat.le_antisymm (Nat.le_of_not_lt (hlength ha.symm hb.symm)) (Nat.le_of_not_lt (hlength ha hb))
  exact (List.append_inj ha heq).1

/-- A block is never rendered to nothing. -/
theorem Tree.IsGrown.renderAfter_ne {t : Tree} (h : t.IsGrown path) (hblock : t.isBlock = true)
    (before : Ending) : (t.renderAfter depth before).toList ≠ [] := by
  obtain ⟨core, statement, children, rfl⟩ := Tree.exists_of_isBlock hblock
  cases hrebuilt : core.isRebuilt with
  | true =>
    rw [Tree.renderAfter_of_rebuilt hrebuilt]
    simp [String.toList_append, h.opening_ne]
  | false =>
    have hparsed : core.origin.synthetic = false := by simp_all [Core.isRebuilt]
    rw [Tree.renderAfter_of_copied hrebuilt]
    exact (h.hasTags rfl hparsed).text_ne

/-- Only blocks are rendered in another way when their changes are forgotten. -/
theorem Tree.isBlock_of_renderAfter_ne {t : Tree} {before : Ending}
    (h : t.settled.renderAfter depth before ≠ t.renderAfter depth before) : t.isBlock = true := by
  cases t with
  | block core statement children => rfl
  | comment core text => exact absurd rfl h
  | directive core statement => exact absurd rfl h

/-- What comes after some text is not the first thing of a file. -/
theorem separator_of_synthetic {o : Origin} (ho : o.synthetic = true) {text : String}
    (h : text.toList ≠ []) (e : Ending) :
    separator depth (e.after text) o = "\n" ++ indent depth := by
  have hsome : e.after text ≠ .nothing := by
    rw [Ending.after, List.getLast?_eq_some_getLast h]
    simp only
    split <;> simp
  rw [separator, if_pos ho, if_neg hsome]

/-- A node that is rendered in another way when its changes are forgotten is told by a comment after
it. -/
theorem Tree.IsGrown.exists_comment_ne {t : Tree} (ht : t.IsGrown path) {core : Core}
    (hcore : core.origin.synthetic = true)
    (h : t.settled.renderAfter depth .nothing ≠ t.renderAfter depth .nothing) (before : Ending)
    (f g : Forest) :
    ∃ text, Forest.renderAfter depth before (t.settled :: .comment core text :: f) ≠
      Forest.renderAfter depth before (t :: .comment core text :: g) := by
  have hblock := Tree.isBlock_of_renderAfter_ne h
  have hblock' : t.settled.isBlock = true := by rwa [Tree.settled_isBlock]
  have hcomment : ∀ text, (Tree.comment core text).core = core := fun text => rfl
  by_contra hnone
  -- the comment starts a line, and neither of two comments tells the renderings apart
  have hmark : ∀ c : Char, ∃ r r' : List Char,
      (t.settled.renderAfter depth .nothing).toList ++
          ((("\n" ++ indent depth).toList ++ ['#', ' ']) ++ c :: r) =
        (t.renderAfter depth .nothing).toList ++
          ((("\n" ++ indent depth).toList ++ ['#', ' ']) ++ c :: r') := by
    intro c
    have hline : (commentLine (String.ofList [c])).toList = ['#', ' ', c] := by
      simp [commentLine]
    have heq : Forest.renderAfter depth before
          (t.settled :: .comment core (String.ofList [c]) :: f) =
        Forest.renderAfter depth before (t :: .comment core (String.ofList [c]) :: g) := by
      by_contra hne
      exact hnone ⟨_, hne⟩
    simp only [Forest.renderAfter, Tree.settled_origin, hcomment,
      separator_of_synthetic hcore (ht.renderAfter_ne hblock _),
      separator_of_synthetic hcore (ht.settled.renderAfter_ne hblock' _)] at heq
    rw [ht.settled.renderAfter_eq _ .nothing, ht.renderAfter_eq _ .nothing] at heq
    simp only [Tree.renderAfter, hcore, if_true, String.append_assoc, String.ext_iff,
      String.toList_append, hline, List.append_cancel_left_eq, List.cons_append,
      List.nil_append] at heq
    simp only [String.toList_append, List.append_assoc, List.cons_append, List.nil_append]
    exact ⟨_, _, heq⟩
  obtain ⟨r, r', ha⟩ := hmark 'a'
  obtain ⟨q, q', hb⟩ := hmark 'b'
  exact h (String.ext_iff.2 (eq_of_append_marked (by decide) ha hb))

/-- Nodes that are rendered alike when their changes are forgotten leave what comes after them
alone. -/
theorem Tree.IsGrown.renderAfter_cons_ne {t : Tree} (ht : t.IsGrown path)
    (h : t.settled.renderAfter depth .nothing = t.renderAfter depth .nothing) {before : Ending}
    {f g : Forest}
    (hne : Forest.renderAfter depth ((before.after (separator depth before t.core.origin)).after
        (t.renderAfter depth .nothing)) f ≠
      Forest.renderAfter depth ((before.after (separator depth before t.core.origin)).after
        (t.renderAfter depth .nothing)) g) :
    Forest.renderAfter depth before (t.settled :: f) ≠
      Forest.renderAfter depth before (t :: g) := by
  intro heq
  simp only [Forest.renderAfter, Tree.settled_origin] at heq
  rw [ht.settled.renderAfter_eq _ .nothing, ht.renderAfter_eq _ .nothing, h] at heq
  refine hne (String.ext_iff.2 ?_)
  simpa only [String.ext_iff, String.toList_append, List.append_cancel_left_eq,
    List.append_assoc] using heq

/-- Among children of which one is rendered in another way when its changes are forgotten, there is
a place for a comment that tells. -/
theorem Forest.exists_insertIdx_ne (core : Core) (hcore : core.origin.synthetic = true)
    {f : Forest} (hgrown : ∀ u ∈ f, u.IsGrown path)
    (h : ∃ c ∈ f, c.settled.renderAfter depth .nothing ≠ c.renderAfter depth .nothing)
    (before : Ending) : ∃ index ≤ f.length, ∃ text,
      Forest.renderAfter depth before
          ((f.map Tree.settled).insertIdx index (.comment core text)) ≠
        Forest.renderAfter depth before (f.insertIdx index (.comment core text)) := by
  induction f generalizing before with
  | nil => simp at h
  | cons t f ih =>
    have ht := hgrown t (by simp)
    by_cases hsame : t.settled.renderAfter depth .nothing = t.renderAfter depth .nothing
    · have hrest : ∃ c ∈ f,
          c.settled.renderAfter depth .nothing ≠ c.renderAfter depth .nothing := by
        obtain ⟨c, hc, hne⟩ := h
        refine ⟨c, (List.mem_cons.1 hc).resolve_left ?_, hne⟩
        rintro rfl
        exact hne hsame
      obtain ⟨index, hindex, text, hne⟩ := ih (fun u hu => hgrown u (by simp [hu])) hrest _
      exact ⟨index + 1, Nat.succ_le_succ hindex, text, ht.renderAfter_cons_ne hsame hne⟩
    · obtain ⟨text, hne⟩ := ht.exists_comment_ne hcore hsame before (f.map Tree.settled) f
      exact ⟨1, by simp, text, hne⟩

/-- Add a comment to the children of a block. -/
def Tree.note (p : Tree) (next : NodeId) (index : Nat) (text : String) : Tree → Tree :=
  Tree.withChildren fun children => children.insertIdx index (.comment (p.core.child next) text)

theorem Tree.renderAfter_block_ne {x y : Core} {statement : Statement} {f g : Forest}
    {before : Ending} (hx : x.isRebuilt = true) (hy : y.isRebuilt = true)
    (horigin : x.origin = y.origin)
    (hne : Forest.renderAfter (y.inner depth) (before.after (y.opening statement)) f ≠
      Forest.renderAfter (y.inner depth) (before.after (y.opening statement)) g) :
    (Tree.block x statement f).renderAfter depth before ≠
      (Tree.block y statement g).renderAfter depth before := by
  rw [Tree.renderAfter_of_rebuilt hx, Tree.renderAfter_of_rebuilt hy, Core.opening_eq horigin,
    Core.closing_eq horigin, Core.inner_eq horigin]
  intro heq
  refine hne (String.ext_iff.2 ?_)
  simpa only [String.ext_iff, String.toList_append, List.append_cancel_left_eq,
    List.append_cancel_right_eq] using heq

/-- A block with changes inside ends in the middle of a line. -/
theorem Tree.IsGrown.after_touch {t : Tree} (h : t.IsGrown path) (hblock : t.isBlock = true)
    {id : NodeId} (hany : t.nodes.any (·.id == id) = true) (k : Forest → Forest)
    (e before : Ending) :
    e.after ((t.touch id (Tree.withChildren k)).renderAfter depth before) = .midLine := by
  obtain ⟨core, statement, children, rfl⟩ := Tree.exists_of_isBlock hblock
  have hends : ∀ {x : Core} {f : Forest}, x.isRebuilt = true → x.origin = core.origin →
      e.after ((Tree.block x statement f).renderAfter depth before) = .midLine := by
    intro x f hx horigin
    rw [Tree.renderAfter_of_rebuilt hx, Ending.after_append, Core.closing_eq horigin,
      h.after_closing]
  by_cases hid : (Tree.block core statement children).id = id
  · rw [Tree.touch_self hid]
    exact hends (by simp [Core.isRebuilt, Core.touched]) rfl
  · rw [Tree.nodes, List.any_cons, beq_false_of_ne hid, Bool.false_or] at hany
    rw [Tree.touch_inside hid hany]
    exact hends (by simp [Core.isRebuilt, Core.stirred]) rfl

/-- A block that is not faithful, but rendered alike when its changes are forgotten, has something
inside that is not faithful. -/
theorem Tree.IsGrown.isFaithful_children {t : Tree} (ht : t.IsGrown path)
    (hsame : t.settled.renderAfter depth .nothing = t.renderAfter depth .nothing)
    (h : t.isFaithful depth = false) :
    t.isBlock = true ∧ Forest.isFaithful (t.core.inner depth) t.children = false := by
  cases t with
  | comment core text => simp [Tree.isFaithful] at h
  | directive core statement => simp [Tree.isFaithful] at h
  | block core statement children =>
    have hdocument : core.origin.isDocument = false := ht.isDocument_eq
    have hinner : core.inner depth = depth + 1 := by simp [Core.inner, hdocument]
    have hself : (core.origin.synthetic ||
        (Tree.block core statement children).renderAfter depth .nothing ==
          core.origin.fragment.text) = true := by
      cases hparsed : core.origin.synthetic with
      | true => rfl
      | false =>
        -- without its flags the block is copied, so its text is the one it was read from
        have hcopied : core.clean.isRebuilt = false := by
          simp [Core.isRebuilt, Core.clean, hdocument, hparsed]
        rw [Tree.settled_block, Tree.renderAfter_of_copied hcopied] at hsame
        rw [← hsame]
        simp [Core.clean]
    rw [Tree.isFaithful, hself, Bool.true_and] at h
    refine ⟨rfl, ?_⟩
    change Forest.isFaithful (core.inner depth) children = false
    rw [hinner, h]

theorem Forest.renderAfter_settled {f : Forest} (hgrown : ∀ u ∈ f, u.IsGrown path)
    (h : ∀ c ∈ f, c.settled.renderAfter depth .nothing = c.renderAfter depth .nothing)
    (before : Ending) :
    Forest.renderAfter depth before (f.map Tree.settled) = Forest.renderAfter depth before f := by
  induction f generalizing before with
  | nil => rfl
  | cons t f ih =>
    have ht := hgrown t (by simp)
    have hsame : ∀ e, t.settled.renderAfter depth e = t.renderAfter depth e := by
      intro e
      rw [ht.settled.renderAfter_eq e .nothing, h t (by simp), ht.renderAfter_eq .nothing e]
    rw [List.map_cons, Forest.renderAfter, Forest.renderAfter]
    simp only [Tree.settled_origin, hsame, ih (fun u hu => hgrown u (by simp [hu]))
      (fun c hc => h c (by simp [hc]))]

/-- Rendering blocks with changes inside in different ways leaves what comes after them alone. -/
theorem Tree.IsGrown.renderAfter_touch_cons_ne {t p : Tree} (ht : t.IsGrown path)
    (hblock : t.isBlock = true) (hp : p ∈ t.nodes) {k : Forest → Forest} {before : Ending}
    {f g : Forest}
    (hne : (t.settled.touch p.id (Tree.withChildren k)).renderAfter depth
        (before.after (separator depth before t.core.origin)) ≠
      (t.touch p.id (Tree.withChildren k)).renderAfter depth
        (before.after (separator depth before t.core.origin)))
    (hrest : Forest.renderAfter depth .midLine f = Forest.renderAfter depth .midLine g) :
    Forest.renderAfter depth before (t.settled.touch p.id (Tree.withChildren k) :: f) ≠
      Forest.renderAfter depth before (t.touch p.id (Tree.withChildren k) :: g) := by
  have hblock' : t.settled.isBlock = true := by rwa [Tree.settled_isBlock]
  have hany : t.nodes.any (·.id == p.id) = true := List.any_eq_true.2 ⟨p, hp, beq_self_eq_true _⟩
  have hany' : t.settled.nodes.any (·.id == p.id) = true := by
    rwa [Tree.nodes_settled, Tree.any_id_settled]
  have horigin : ∀ t : Tree, (t.touch p.id (Tree.withChildren k)).core.origin = t.core.origin := by
    intro t
    rcases Tree.touch_core fun _ : t.id = p.id => Tree.withChildren_core k with h | h | h <;>
      rw [h] <;> rfl
  -- both renderings end in the middle of a line, so the same text comes after them
  intro heq
  simp only [Forest.renderAfter, horigin, Tree.settled_origin, ht.after_touch hblock hany,
    ht.settled.after_touch hblock' hany', hrest] at heq
  refine hne (String.ext_iff.2 ?_)
  simpa only [String.ext_iff, String.toList_append, List.append_cancel_left_eq,
    List.append_cancel_right_eq] using heq

theorem Tree.forall_id_ne_settled {ts : List Tree} {id : NodeId} (h : ∀ u ∈ ts, u.id ≠ id) :
    ∀ u ∈ ts.map Tree.settled, u.id ≠ id := by
  intro u hu
  obtain ⟨v, hv, rfl⟩ := List.mem_map.1 hu
  rw [Tree.settled_id]
  exact h v hv

mutual
/-- In a tree that is not faithful inside, there is a place for a comment that tells whether the
changes are forgotten. -/
theorem Tree.exists_note_ne {depth : Nat} (before : Ending) (next : NodeId) (t : Tree)
    (hnodup : (t.nodes.map Tree.id).Nodup) (hgrown : ∀ u ∈ Forest.nodes t.children, u.IsGrown path)
    (h : Forest.isFaithful (t.core.inner depth) t.children = false) :
    ∃ p ∈ t.nodes, p.isBlock = true ∧ ∃ index ≤ p.children.length, ∃ text,
      (t.settled.touch p.id (p.note next index text)).renderAfter depth before ≠
        (t.touch p.id (p.note next index text)).renderAfter depth before := by
  match t with
  | .comment core text => simp [Tree.children, Forest.isFaithful] at h
  | .directive core statement => simp [Tree.children, Forest.isFaithful] at h
  | .block core statement children =>
    simp only [Tree.children, Tree.core] at hgrown h
    obtain ⟨hfresh, hnodup⟩ := Tree.nodup_block hnodup
    by_cases hsame : ∀ c ∈ children, c.settled.renderAfter (core.inner depth) .nothing =
        c.renderAfter (core.inner depth) .nothing
    · -- no child tells by itself: the comment goes further inside, in a block that is rebuilt
      obtain ⟨p, hp, hblock, index, hindex, text, hne⟩ := Forest.exists_note_ne
        (before.after (core.opening statement)) next children hnodup hgrown hsame h
      have hid : (Tree.block core statement children).id ≠ p.id := fun hid => hfresh p hp hid.symm
      have hany : (Forest.nodes children).any (·.id == p.id) = true :=
        List.any_eq_true.2 ⟨p, hp, beq_self_eq_true _⟩
      have hany' : (Forest.nodes (children.map Tree.settled)).any (·.id == p.id) = true := by
        rwa [Forest.nodes_settled, Tree.any_id_settled]
      refine ⟨p, Tree.mem_nodes_of_mem_children hp, hblock, index, hindex, text, ?_⟩
      have hid' : (Tree.block core.clean statement (children.map Tree.settled)).id ≠ p.id := hid
      rw [Tree.settled_block, Tree.touch_inside hid hany, Tree.touch_inside hid' hany']
      refine Tree.renderAfter_block_ne ?_ ?_ rfl hne <;> simp [Core.isRebuilt, Core.stirred]
    · -- some child tells: the comment goes right into this block
      have hsome : ∃ c ∈ children, c.settled.renderAfter (core.inner depth) .nothing ≠
          c.renderAfter (core.inner depth) .nothing := by
        simpa using hsame
      obtain ⟨index, hindex, text, hne⟩ := Forest.exists_insertIdx_ne (core.child next) rfl
        (fun u hu => hgrown u (Forest.mem_nodes_of_mem hu)) hsome
        (before.after (core.opening statement))
      refine ⟨_, Tree.self_mem_nodes _, rfl, index, hindex, text, ?_⟩
      rw [Tree.touch_self (Tree.settled_id _), Tree.touch_self rfl, Tree.settled_block]
      exact Tree.renderAfter_block_ne (by simp [Core.isRebuilt, Core.touched])
        (by simp [Core.isRebuilt, Core.touched]) rfl hne

theorem Forest.exists_note_ne {depth : Nat} (before : Ending) (next : NodeId) (f : Forest)
    (hnodup : ((Forest.nodes f).map Tree.id).Nodup)
    (hgrown : ∀ u ∈ Forest.nodes f, u.IsGrown path)
    (hsame : ∀ c ∈ f, c.settled.renderAfter depth .nothing = c.renderAfter depth .nothing)
    (h : Forest.isFaithful depth f = false) :
    ∃ p ∈ Forest.nodes f, p.isBlock = true ∧ ∃ index ≤ p.children.length, ∃ text,
      Forest.renderAfter depth before
          (Forest.touch p.id (p.note next index text) (f.map Tree.settled)) ≠
        Forest.renderAfter depth before (Forest.touch p.id (p.note next index text) f) := by
  match f with
  | [] => simp [Forest.isFaithful] at h
  | t :: f =>
    have hself := hgrown t (by simp [t.self_mem_nodes])
    rw [Forest.nodes_cons, List.map_append, List.nodup_append] at hnodup
    obtain ⟨hnodup, hnodup', hdisjoint⟩ := hnodup
    cases ht : t.isFaithful depth with
    | true =>
      rw [Forest.isFaithful, ht, Bool.true_and] at h
      obtain ⟨p, hp, hblock, index, hindex, text, hne⟩ := Forest.exists_note_ne
        ((before.after (separator depth before t.core.origin)).after
          (t.renderAfter depth .nothing)) next f hnodup'
        (fun u hu => hgrown u (by simp [hu])) (fun c hc => hsame c (by simp [hc])) h
      refine ⟨p, by simp [hp], hblock, index, hindex, text, ?_⟩
      -- the first tree is left as it is, and rendered alike with and without its flags
      have hnone : ∀ u ∈ t.nodes, u.id ≠ p.id := fun u hu =>
        hdisjoint u.id (List.mem_map_of_mem hu) p.id (List.mem_map_of_mem hp)
      have hnone' := Tree.forall_id_ne_settled hnone
      rw [← Tree.nodes_settled] at hnone'
      rw [List.map_cons, Forest.touch, Forest.touch, Tree.touch_of_not_mem t hnone,
        Tree.touch_of_not_mem t.settled hnone']
      exact hself.renderAfter_cons_ne (hsame t (by simp)) hne
    | false =>
      obtain ⟨hblock, hinside⟩ := hself.isFaithful_children (hsame t (by simp)) ht
      obtain ⟨p, hp, hblock', index, hindex, text, hne⟩ := Tree.exists_note_ne
        (before.after (separator depth before t.core.origin)) next t hnodup
        (fun u hu => hgrown u (by simp [Tree.mem_nodes_of_mem_children hu])) hinside
      refine ⟨p, by simp [hp], hblock', index, hindex, text, ?_⟩
      -- the comment goes into the first tree, and the others are rendered alike
      have hnone : ∀ u ∈ Forest.nodes f, u.id ≠ p.id := fun u hu heq =>
        hdisjoint p.id (List.mem_map_of_mem hp) u.id (List.mem_map_of_mem hu) heq.symm
      have hnone' := Tree.forall_id_ne_settled hnone
      rw [← Forest.nodes_settled] at hnone'
      rw [List.map_cons, Forest.touch, Forest.touch, Forest.touch_of_not_mem f hnone,
        Forest.touch_of_not_mem _ hnone']
      exact hself.renderAfter_touch_cons_ne hblock hp hne
        (Forest.renderAfter_settled (fun u hu => hgrown u (by simp [Forest.mem_nodes_of_mem hu]))
          (fun c hc => hsame c (by simp [hc])) .midLine)
end

/-- A comment is added to a block of a sheet. -/
theorem Sheet.edit_note {s : Sheet} {p b : Tree} {index : Nat} (text : String)
    (hfind : s.find? p.id = some b) (hcore : b.core.child s.next = p.core.child s.next)
    (hblock : b.isBlock = true) (hindex : index ≤ b.children.length) :
    s.edit (.add p.id (.comment text) (some index)) =
      some ⟨s.tree.touch p.id (p.note s.next index text), s.next + 1⟩ := by
  simp only [Sheet.edit, hfind, hblock, NodeContent.name?, Option.getD_some, hcore]
  rw [if_pos (by simpa using hindex)]
  rfl

/-- The changes of an edit are stored in the end. -/
theorem Desk.finalText_edit {d : Desk} {e : Edit} {s : Sheet} (hedit : d.sheet.edit e = some s)
    (hdirty : s.tree.core.dirty = true) :
    d.finalText [.edit e] = some (some (s.tree.renderAfter 0 .nothing)) := by
  simp [Desk.finalText, Desk.move, hedit, Desk.saved, hdirty]

/-- A save of a document with a block that is not faithful shows after one more edit. -/
theorem Desk.exists_edit_finalText_ne {document : Fragment} {d : Desk}
    (hkept : d.sheet.tree.IsKept document) (hkind : document.kind = .document)
    (hnodup : (d.sheet.tree.nodes.map Tree.id).Nodup)
    (h : Forest.isFaithful 0 d.sheet.tree.children = false) :
    ∃ e text text', d.saved.finalText [.edit e] = some (some text) ∧
      d.finalText [.edit e] = some (some text') ∧ text ≠ text' := by
  obtain ⟨core, children, standing, htree, horigin, -, hgrown⟩ := hkept.isDocumentWith
  have hinner : d.sheet.tree.core.inner 0 = 0 := by
    rw [htree, Tree.core, Core.inner, horigin, if_pos (Origin.isDocument_parsed hkind)]
  have hinside : ∀ u ∈ Forest.nodes d.sheet.tree.children, u.IsGrown document.source.path := by
    rw [htree]
    exact hgrown
  obtain ⟨p, hp, hblock, index, hindex, text, hne⟩ := Tree.exists_note_ne .nothing d.sheet.next
    d.sheet.tree hnodup hinside (by rwa [hinner])
  have hfind : d.sheet.find? p.id = some p := Tree.find?_id_eq hnodup hp
  -- the same edit succeeds after the save, as the block is found by its number
  have hfind' : d.saved.sheet.find? p.id = some p.settled := by
    have hp' : p.settled ∈ d.sheet.tree.settled.nodes := by
      rw [Tree.nodes_settled]
      exact List.mem_map_of_mem hp
    have hnodup' : (d.sheet.tree.settled.nodes.map Tree.id).Nodup := by rwa [Tree.ids_settled]
    rw [← p.settled_id]
    exact Tree.find?_id_eq hnodup' hp'
  have hedit := Sheet.edit_note text hfind rfl hblock hindex
  have hindex' : index ≤ p.settled.children.length := by
    rwa [Tree.settled_children, List.length_map]
  have hedit' := Sheet.edit_note text hfind' (by rw [Tree.settled_core]; rfl)
    (by rwa [Tree.settled_isBlock]) hindex'
  have hdirty := (Sheet.look_or_dirty hedit).resolve_left (by simp)
  have hdirty' := (Sheet.look_or_dirty hedit').resolve_left (by simp)
  exact ⟨_, _, _, Desk.finalText_edit hedit' hdirty', Desk.finalText_edit hedit hdirty, hne⟩

/-! ## Runs with saves -/

section

variable {source : SourceFile} {policy : Policy} {moves : List Move} {r : Tree} {w : Workspace}
  {store : Store}

theorem Desk.finalText_append {d d' : Desk} (h : moves.foldlM Desk.move d = some d')
    (later : List Move) : d.finalText (moves ++ later) = d'.finalText later := by
  rw [Desk.finalText, List.foldlM_append, h]
  rfl

/-- The final text does not depend on a save that is made when all blocks are faithful. -/
theorem finalText_save_eq (h : workFile source policy moves = some (r, w, store))
    (hfaithful : Forest.isFaithful 0 r.children = true) (later : List Move) :
    finalText source policy (moves ++ .save :: later) =
      finalText source policy (moves ++ later) := by
  obtain ⟨document, d, hrun, hfollows, -, hsheet, hkind, hfinal⟩ := exists_desk_of_workFile h
  have hchildren : Forest.isFaithful 0 d.sheet.tree.children = true := by
    rw [hsheet, Tree.forget_children, Forest.isFaithful_forget, hfaithful]
  have hagrees := Desk.agrees_saved hfollows.isKept hkind hchildren
  rw [hfinal, hfinal, Desk.finalText_append hrun, Desk.finalText_append hrun,
    ← hagrees.finalText_eq later]
  rfl

/-- The final text depends on a save that is made when a block is not faithful, already after one
more edit. -/
theorem exists_finalText_save_ne (h : workFile source policy moves = some (r, w, store))
    (hfaithful : Forest.isFaithful 0 r.children = false) :
    ∃ e text text', finalText source policy (moves ++ [.save, .edit e]) = some (some text) ∧
      finalText source policy (moves ++ [.edit e]) = some (some text') ∧ text ≠ text' := by
  obtain ⟨document, d, hrun, hfollows, hw, hsheet, hkind, hfinal⟩ := exists_desk_of_workFile h
  have hchildren : Forest.isFaithful 0 d.sheet.tree.children = false := by
    rw [hsheet, Tree.forget_children, Forest.isFaithful_forget, hfaithful]
  have hnodup : (d.sheet.tree.nodes.map Tree.id).Nodup := by
    have hids := hw.tidy.nodup_nodes (Forest.mem_nodes_of_mem hw.mem)
    simpa only [hsheet, Tree.nodes_forget, List.map_map, Function.comp_def, Tree.forget_id]
      using hids
  obtain ⟨e, text, text', hsaved, hplain, hne⟩ :=
    Desk.exists_edit_finalText_ne hfollows.isKept hkind hnodup hchildren
  refine ⟨e, text, text', ?_, ?_, hne⟩
  · rw [hfinal, Desk.finalText_append hrun, ← hsaved]
    rfl
  · rw [hfinal, Desk.finalText_append hrun, hplain]

def Move.isEdit : Move → Bool
  | .edit _ => true
  | .save => false

/-- All saves of a run are made when all blocks are faithful. -/
def SavesFaithfully (source : SourceFile) (policy : Policy) (moves : List Move) : Prop :=
  ∀ before r w store, before ++ [.save] <+: moves →
    workFile source policy before = some (r, w, store) → Forest.isFaithful 0 r.children = true

/-- The final text does not depend on saves that are made when all blocks are faithful. -/
theorem SavesFaithfully.finalText_eq (h : SavesFaithfully source policy moves)
    (later : List Move) : finalText source policy (moves ++ later) =
      finalText source policy (moves.filter Move.isEdit ++ later) := by
  -- the last save is left out first, so that what comes after it is arbitrary
  induction moves using List.reverseRecOn generalizing later with
  | nil => rfl
  | append_singleton moves m ih =>
    have hbefore : SavesFaithfully source policy moves := fun before r w store hsave =>
      h before r w store (hsave.trans (List.prefix_append ..))
    rw [List.append_assoc, List.filter_append]
    cases m with
    | edit e =>
      rw [List.append_assoc]
      exact ih hbefore _
    | save =>
      have hsave : finalText source policy (moves ++ .save :: later) =
          finalText source policy (moves ++ later) := by
        cases hwork : workFile source policy moves with
        | none => rw [finalText_append_of_workFile_eq_none hwork,
            finalText_append_of_workFile_eq_none hwork]
        | some state =>
          obtain ⟨r, w, store⟩ := state
          exact finalText_save_eq hwork (h moves r w store (List.prefix_refl _) hwork) later
      rw [List.singleton_append, hsave, ih hbefore]
      simp [Move.isEdit]

end

/-- Saves that are made when all blocks are faithful can be left out, and at any point of a run a
further save can be left out, whatever comes after it, just when all blocks are faithful. -/
theorem finalText_saves (source : SourceFile) (policy : Policy) (moves : List Move) :
    (SavesFaithfully source policy moves →
      finalText source policy moves = finalText source policy (moves.filter Move.isEdit)) ∧
    ∀ r w store, workFile source policy moves = some (r, w, store) →
      ((∀ later, finalText source policy (moves ++ .save :: later) =
          finalText source policy (moves ++ later)) ↔
        Forest.isFaithful 0 r.children = true) := by
  refine ⟨fun h => ?_, fun r w store h => ⟨fun hlater => ?_, finalText_save_eq h⟩⟩
  · simpa using h.finalText_eq []
  · by_contra hfaithful
    obtain ⟨e, text, text', hsaved, hplain, hne⟩ :=
      exists_finalText_save_ne h (by simpa using hfaithful)
    have heq := hlater [.edit e]
    rw [hsaved, hplain] at heq
    exact hne (Option.some.inj (Option.some.inj heq))

/-- A save after a comment was added can be left out, one after a statement inside a block was given
other parameters cannot. -/
theorem finalText_saves_nested :
    (SavesFaithfully ⟨⟨"site.conf"⟩, "<A>\nB 1\n</A>\n"⟩ Policy.default
        [.edit (.add 0 (.comment "c") none), .save, .edit (.setParameters 2 ["2"])] ∧
      finalText ⟨⟨"site.conf"⟩, "<A>\nB 1\n</A>\n"⟩ Policy.default
          [.edit (.add 0 (.comment "c") none), .save, .edit (.setParameters 2 ["2"])] =
        finalText ⟨⟨"site.conf"⟩, "<A>\nB 1\n</A>\n"⟩ Policy.default
          [.edit (.add 0 (.comment "c") none), .edit (.setParameters 2 ["2"])]) ∧
    ∃ r w store, workFile ⟨⟨"site.conf"⟩, "<A>\nB 1\n</A>\n"⟩ Policy.default
        [.edit (.setParameters 2 ["2"])] = some (r, w, store) ∧
      Forest.isFaithful 0 r.children = false ∧
      ¬ ∀ later, finalText ⟨⟨"site.conf"⟩, "<A>\nB 1\n</A>\n"⟩ Policy.default
          ([.edit (.setParameters 2 ["2"])] ++ .save :: later) =
        finalText ⟨⟨"site.conf"⟩, "<A>\nB 1\n</A>\n"⟩ Policy.default
          ([.edit (.setParameters 2 ["2"])] ++ later) := by
  have houtside : (workFile ⟨⟨"site.conf"⟩, "<A>\nB 1\n</A>\n"⟩ Policy.default
      [.edit (.add 0 (.comment "c") none)]).all
        (fun state => Forest.isFaithful 0 state.1.children) = true := by
    decide +kernel
  have hinside : (workFile ⟨⟨"site.conf"⟩, "<A>\nB 1\n</A>\n"⟩ Policy.default
      [.edit (.setParameters 2 ["2"])]).any
        (fun state => !Forest.isFaithful 0 state.1.children) = true := by
    decide +kernel
  have hsaves : SavesFaithfully ⟨⟨"site.conf"⟩, "<A>\nB 1\n</A>\n"⟩ Policy.default
      [.edit (.add 0 (.comment "c") none), .save, .edit (.setParameters 2 ["2"])] := by
    intro before r w store hbefore h
    -- the only save comes after the comment
    match before with
    | [] => simp at hbefore
    | [m] =>
      obtain rfl : m = .edit (.add 0 (.comment "c") none) := by simpa using hbefore
      rw [h] at houtside
      exact houtside
    | _ :: _ :: [] => simp at hbefore
    | _ :: _ :: _ :: _ => simp at hbefore
  refine ⟨⟨hsaves, (finalText_saves _ _ _).1 hsaves⟩, ?_⟩
  obtain ⟨⟨r, w, store⟩, h, hfaithful⟩ := (Option.any_eq_true ..).1 hinside
  have hnot : Forest.isFaithful 0 r.children = false := by simpa using hfaithful
  refine ⟨r, w, store, h, hnot, fun hlater => ?_⟩
  have hall := ((finalText_saves _ _ _).2 r w store h).1 hlater
  rw [hnot] at hall
  simp at hall

/-- A save in between can undo an edit. -/
theorem exists_finalText_ne_edits :
    ¬ ∀ (source : SourceFile) (policy : Policy) (moves : List Move),
      finalText source policy moves = finalText source policy (moves.filter Move.isEdit) := by
  intro h
  have hsaved : finalText ⟨⟨"site.conf"⟩, "<A>\nB 1\n</A>\n"⟩ Policy.default
      [.edit (.setParameters 2 ["2"]), .save, .edit (.add 0 (.comment "c") none)] =
        some (some "<A>\nB 1\n</A>\n# c\n") := by
    decide +kernel
  have hplain : finalText ⟨⟨"site.conf"⟩, "<A>\nB 1\n</A>\n"⟩ Policy.default
      [.edit (.setParameters 2 ["2"]), .edit (.add 0 (.comment "c") none)] =
        some (some "<A>\nB 2\n</A>\n# c\n") := by
    decide +kernel
  have heq := h ⟨⟨"site.conf"⟩, "<A>\nB 1\n</A>\n"⟩ Policy.default
    [.edit (.setParameters 2 ["2"]), .save, .edit (.add 0 (.comment "c") none)]
  rw [hsaved] at heq
  exact absurd (heq.trans hplain) (by decide)

end HttpdConf
