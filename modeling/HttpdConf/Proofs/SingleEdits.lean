import HttpdConf.Proofs.Junctions
import HttpdConf.Proofs.LineOriented

/-!
# One node more or less

A node is deleted from a block of a file that was just opened, or a new one is added to it. The
nodes around it are rendered to the text they were read from, and the blocks around it to their
tags and what stands between them, so only the seams are new: one where a node was deleted, two
around a node that was added. The text is read back as it is if the statements on the left of these
seams end there.

## Main definitions

* `Tree.at?`, `Tree.editAt`, `Shape.editAt`: nodes and edits at a path
* `Tree.admitsDelete`, `Tree.admitsInsert`: whether the statements at the new seams end there

## Main results

* `Page.Fills.exists_laidOut_editAt`: an edit at a path leaves the statements around it separated
* `exists_read_delete`, `exists_read_insert`: a file with a node less or more is read back as it is
-/

namespace HttpdConf

/-! ## Nodes at paths -/

/-- The node at a path: the place of a child, the place of a child of that, and so on. -/
def Tree.at? : List Nat → Tree → Option Tree
  | [], t => some t
  | i :: path, t => t.children[i]?.bind (Tree.at? path)

/-- Change the children of the block at a path, and record it. -/
def Tree.editAt (k : Forest → Forest) : List Nat → Tree → Tree
  | [], .block core statement children => .block core.touched statement (k children)
  | i :: path, .block core statement children =>
    .block core.stirred statement (children.modify i (Tree.editAt k path))
  | _, t => t

/-- Change what is inside the block at a path. -/
def Shape.editAt (k : List Shape → List Shape) : List Nat → Shape → Shape
  | [], .block name arguments children => .block name arguments (k children)
  | i :: path, .block name arguments children =>
    .block name arguments (children.modify i (Shape.editAt k path))
  | _, s => s

theorem modify_length_append {α : Type} (as : List α) (a : α) (bs : List α) (f : α → α) :
    (as ++ a :: bs).modify as.length f = as ++ f a :: bs := by
  induction as with
  | nil => rfl
  | cons x as ih => simp [ih]

theorem eraseIdx_length_append {α : Type} (as : List α) (a : α) (bs : List α) :
    (as ++ a :: bs).eraseIdx as.length = as ++ bs := by
  rw [List.eraseIdx_append_of_length_le (Nat.le_refl _), Nat.sub_self, List.eraseIdx_zero,
    List.tail_cons]

theorem insertIdx_length_append {α : Type} (as bs : List α) (a : α) :
    (as ++ bs).insertIdx as.length a = as ++ a :: bs := by
  induction as with
  | nil => rfl
  | cons x as ih => simp [ih]

theorem exists_split_of_getElem? {α : Type} {f : List α} {i : Nat} {c : α} (hc : f[i]? = some c) :
    ∃ as bs, f = as ++ c :: bs ∧ as.length = i := by
  obtain ⟨hi, rfl⟩ := List.getElem?_eq_some_iff.1 hc
  refine ⟨f.take i, f.drop (i + 1), ?_, ?_⟩
  · rw [List.getElem_cons_drop, List.take_append_drop]
  · rw [List.length_take, Nat.min_eq_left (Nat.le_of_lt hi)]

theorem exists_of_forall₂_append_cons {α β : Type} {R : α → β → Prop} {ls : List α} {as bs : List β}
    {c : β} (h : List.Forall₂ R ls (as ++ c :: bs)) :
    ∃ las lc lbs, ls = las ++ lc :: lbs ∧ List.Forall₂ R las as ∧ R lc c ∧
      List.Forall₂ R lbs bs := by
  have htake := List.forall₂_take_append ls as (c :: bs) h
  have hdrop := List.forall₂_drop_append ls as (c :: bs) h
  obtain ⟨lc, lbs, hc, hbs, heq⟩ := List.forall₂_cons_right_iff.1 hdrop
  exact ⟨_, lc, lbs, by rw [← heq, List.take_append_drop], htake, hc, hbs⟩

theorem Forest.shapes_eq_map (f : Forest) : Forest.shapes f = f.map Tree.shape := by
  induction f with
  | nil => rfl
  | cons t f ih => rw [Forest.shapes, ih, List.map_cons]

variable {t b c : Tree} {path : List Nat} {k : Forest → Forest} {i : Nat}

theorem Tree.at?_cons : t.at? (i :: path) = some b ↔
    ∃ as c bs, t.children = as ++ c :: bs ∧ as.length = i ∧ c.at? path = some b := by
  rw [Tree.at?, Option.bind_eq_some_iff]
  constructor
  · rintro ⟨c, hc, hb⟩
    obtain ⟨as, bs, hchildren, hlength⟩ := exists_split_of_getElem? hc
    exact ⟨as, c, bs, hchildren, hlength, hb⟩
  · rintro ⟨as, c, bs, hchildren, rfl, hb⟩
    exact ⟨c, by simp [hchildren], hb⟩

theorem Tree.eq_block_of_children_ne {as bs : Forest} (h : t.children = as ++ c :: bs) :
    ∃ core statement, t = .block core statement (as ++ c :: bs) := by
  cases t with
  | comment => simp [Tree.children] at h
  | directive => simp [Tree.children] at h
  | block core statement children => exact ⟨core, statement, by rw [← h]; rfl⟩

theorem Tree.isBlock_of_children_ne {as bs : Forest} (h : t.children = as ++ c :: bs) :
    t.isBlock = true := by
  obtain ⟨core, statement, rfl⟩ := Tree.eq_block_of_children_ne h
  rfl

theorem Tree.mem_nodes_of_at? (hb : t.at? path = some b) : b ∈ t.nodes := by
  induction path generalizing t with
  | nil =>
    obtain rfl := Option.some.inj hb
    exact t.self_mem_nodes
  | cons i path ih =>
    obtain ⟨as, c, bs, hchildren, -, hc⟩ := Tree.at?_cons.1 hb
    refine Tree.mem_nodes_of_mem_children (Forest.mem_nodes.2 ⟨c, ?_, ih hc⟩)
    simp [hchildren]

theorem Tree.isBlock_of_at? (hb : t.at? path = some b) (hblock : b.isBlock = true) :
    t.isBlock = true := by
  cases path with
  | nil =>
    obtain rfl := Option.some.inj hb
    exact hblock
  | cons i path =>
    obtain ⟨as, c, bs, hchildren, -⟩ := Tree.at?_cons.1 hb
    exact Tree.isBlock_of_children_ne hchildren

/-- An edit at a path changes a block around it in its flags and children only. -/
theorem Tree.exists_editAt_eq (k : Forest → Forest) (path : List Nat) (core : Core)
    (statement : Statement) (children : Forest) :
    ∃ core' children', (Tree.block core statement children).editAt k path =
      .block core' statement children' ∧ core'.origin = core.origin ∧ core'.dirty = true := by
  cases path with
  | nil => exact ⟨_, _, rfl, rfl, rfl⟩
  | cons i path => exact ⟨_, _, rfl, rfl, rfl⟩

/-- What an edit at a path does to the shape. -/
theorem Tree.shape_editAt {k' : List Shape → List Shape} (hb : t.at? path = some b)
    (hblock : b.isBlock = true)
    (hk : Forest.shapes (k b.children) = k' (Forest.shapes b.children)) :
    (t.editAt k path).shape = t.shape.editAt k' path := by
  induction path generalizing t with
  | nil =>
    obtain rfl := Option.some.inj hb
    obtain ⟨core, statement, children, rfl⟩ := Tree.exists_of_isBlock hblock
    rw [Tree.children] at hk
    rw [Tree.editAt, Tree.shape, Tree.shape, Shape.editAt, hk]
  | cons i path ih =>
    obtain ⟨as, c, bs, hchildren, rfl, hc⟩ := Tree.at?_cons.1 hb
    obtain ⟨core, statement, rfl⟩ := Tree.eq_block_of_children_ne hchildren
    rw [Tree.editAt, Tree.shape, Tree.shape, Shape.editAt, modify_length_append,
      Forest.shapes_eq_map, Forest.shapes_eq_map, List.map_append, List.map_append, List.map_cons,
      List.map_cons, ih hc, ← List.length_map (f := Tree.shape), modify_length_append]

/-- Where each number is given once, an edit of a node is an edit at its path. -/
theorem Tree.touch_eq_editAt (hnodup : (t.nodes.map Tree.id).Nodup) (hb : t.at? path = some b)
    (hblock : b.isBlock = true) :
    t.touch b.id (Tree.withChildren k) = t.editAt k path := by
  induction path generalizing t with
  | nil =>
    obtain rfl := Option.some.inj hb
    obtain ⟨core, statement, children, rfl⟩ := Tree.exists_of_isBlock hblock
    rw [Tree.touch_self rfl]
    rfl
  | cons i path ih =>
    obtain ⟨as, c, bs, hchildren, rfl, hc⟩ := Tree.at?_cons.1 hb
    obtain ⟨core, statement, rfl⟩ := Tree.eq_block_of_children_ne hchildren
    have hmem := Tree.mem_nodes_of_at? hc
    rw [Tree.nodes, List.map_cons, Forest.nodes_append, Forest.nodes_cons, List.map_append,
      List.map_append, List.nodup_cons, List.nodup_append, List.nodup_append] at hnodup
    obtain ⟨hself, -, ⟨hcs, -, hafter⟩, hbefore⟩ := hnodup
    have hid : b.id ∈ c.nodes.map Tree.id := List.mem_map_of_mem hmem
    -- the number is that of a node of one child, and of no other node
    have htop : (Tree.block core statement (as ++ c :: bs)).id ≠ b.id := fun heq =>
      hself (List.mem_append_right _ (List.mem_append_left _ (heq ▸ hid)))
    have hnone : ∀ u ∈ Forest.nodes as, u.id ≠ b.id := fun u hu =>
      hbefore u.id (List.mem_map_of_mem hu) b.id (List.mem_append_left _ hid)
    have hnone' : ∀ u ∈ Forest.nodes bs, u.id ≠ b.id := fun u hu heq =>
      hafter b.id hid u.id (List.mem_map_of_mem hu) heq.symm
    rw [Tree.touch_inside htop, Tree.editAt, modify_length_append, Forest.touch_eq_map,
      List.map_append, List.map_cons, ih hcs hc, ← Forest.touch_eq_map, ← Forest.touch_eq_map,
      Forest.touch_of_not_mem as hnone, Forest.touch_of_not_mem bs hnone']
    rw [Forest.nodes_append, Forest.nodes_cons]
    simp only [List.any_append, Bool.or_eq_true, List.any_eq_true, beq_iff_eq]
    exact .inr (.inl ⟨b, hmem, rfl⟩)

/-! ## Nodes that were just opened -/

namespace Layout

variable {source : SourceFile} {l : Layout} {ls : List Layout} {depth : Nat} {before : Ending}
  {last : Bool} {trailing rest : List Chunk}

/-- The node was opened from a fragment of the layout. -/
def IsOpenedAs (source : SourceFile) (l : Layout) (t : Tree) : Prop :=
  ∃ k ancestor next f, l.Shows source f ∧ (Tree.ofFragment k ancestor next f).1 = some t

theorem ShowsAll.isOpenedAs {fs : List Fragment} (h : ShowsAll source ls fs) (k : Kinship)
    (ancestor next : NodeId) :
    List.Forall₂ (IsOpenedAs source) ls (Forest.ofFragments k ancestor next fs).1 := by
  induction ls generalizing fs next with
  | nil =>
    rw [ShowsAll] at h
    subst h
    exact .nil
  | cons l ls ih =>
    rw [ShowsAll] at h
    obtain ⟨f, fs, rfl, hf, hfs⟩ := h
    obtain ⟨t, ht, -⟩ := hf.mirrors k ancestor next
    rw [Forest.ofFragments_cons, ht, Option.toList_some, List.singleton_append]
    exact .cons ⟨k, ancestor, next, f, hf, ht⟩ (ih hfs _)

/-- What a node has that was just opened. -/
structure IsFreshOriginOf (source : SourceFile) (l : Layout) (core : Core) : Prop where
  parsed : core.origin.synthetic = false
  shows : l.Shows source core.origin.fragment
  clean : core.dirty = false

theorem IsFreshOriginOf.separator_eq {core : Core} (h : l.IsFreshOriginOf source core) (depth : Nat)
    (before : Ending) :
    separator depth before core.origin = String.ofList (textOf (renewedGap before l.gap)) := by
  rw [← HttpdConf.separator_eq h.shows depth before, ← h.parsed]

theorem IsOpenedAs.isFreshOriginOf (h : l.IsOpenedAs source t) :
    l.IsFreshOriginOf source t.core := by
  obtain ⟨k, ancestor, next, f, hf, ht⟩ := h
  obtain ⟨file, kind, span, leading, header, trailingSpan, footer, children⟩ := f
  cases kind <;> simp only [Tree.ofFragment, Option.some.injEq] at ht
  · simp at ht
  · subst ht
    exact ⟨rfl, hf, rfl⟩
  · subst ht
    exact ⟨rfl, hf, rfl⟩
  · subst ht
    exact ⟨rfl, hf, rfl⟩

theorem IsOpenedAs.shape_eq (h : l.IsOpenedAs source t) : l.shape = t.shape := by
  obtain ⟨k, ancestor, next, f, hf, ht⟩ := h
  obtain ⟨u, hu, -, hshape⟩ := hf.mirrors k ancestor next
  obtain rfl := Option.some.inj (hu.symm.trans ht)
  exact hshape.symm

/-- A block that was just opened has a block's layout, and the nodes inside were opened from it. -/
theorem IsOpenedAs.exists_block {core : Core} {statement : Statement} {children : Forest}
    (h : l.IsOpenedAs source (.block core statement children)) :
    ∃ gap arguments inside trailing closing blanks,
      l = .block gap statement.name arguments inside trailing closing blanks ∧
      statement.parameters = tagArguments arguments ∧ core.keeps statement.parameters = true ∧
      List.Forall₂ (IsOpenedAs source) inside children := by
  obtain ⟨k, ancestor, next, f, hf, ht⟩ := h
  obtain ⟨file, kind, span, leading, header, trailingSpan, footer, fs⟩ := f
  cases kind <;> simp only [Tree.ofFragment, Option.some.injEq] at ht
  · simp at ht
  · simp at ht
  · simp at ht
  · obtain ⟨rfl, rfl, rfl⟩ := Tree.block.inj ht
    cases l <;> rw [Shows] at hf
    · simp at hf
    · simp at hf
    · rename_i gap name arguments inside trailing closing blanks
      obtain ⟨rfl, rfl⟩ := FragmentKind.block.inj hf.1
      refine ⟨gap, arguments, inside, trailing, closing, blanks, rfl, rfl, ?_,
        hf.2.1.isOpenedAs k next (next + 1)⟩
      exact (keeps_iff rfl).2 rfl

theorem IsOpenedAs.renderAfter_eq (h : l.IsOpenedAs source t) (depth : Nat) (before : Ending) :
    t.renderAfter depth before = String.ofList (textOf l.own) := by
  have hfresh := h.isFreshOriginOf
  cases t with
  | comment core text =>
    have hparsed : core.origin.synthetic = false := hfresh.parsed
    rw [Tree.renderAfter, hparsed, if_neg (by simp)]
    exact hfresh.shows.text
  | directive core statement =>
    obtain ⟨k, ancestor, next, f, hf, ht⟩ := h
    obtain ⟨file, kind, span, leading, header, trailingSpan, footer, fs⟩ := f
    cases kind <;> simp [Tree.ofFragment] at ht
    obtain ⟨rfl, rfl⟩ := ht
    rw [Tree.renderAfter, if_pos ((keeps_iff rfl).2 rfl)]
    exact hf.text
  | block core statement children =>
    obtain ⟨gap, arguments, inside, trailing, closing, blanks, rfl, -⟩ := h.exists_block
    have hshows : Shows source _ core.origin.fragment := hfresh.shows
    exact hshows.block_eq_of_clean hfresh.parsed hfresh.clean children depth before

/-- A block with other children is rendered between its tags. -/
theorem IsOpenedAs.renderAfter_block {gap arguments : List Chunk} {inside : List Layout}
    {name : String} {blanks : List Char} {core core' : Core} {statement : Statement}
    {children : Forest}
    (h : (block gap statement.name arguments inside trailing name blanks).IsOpenedAs source
      (.block core statement children))
    (horigin : core'.origin = core.origin) (hdirty : core'.dirty = true) (f : Forest)
    (depth : Nat) (before : Ending) :
    (Tree.block core' statement f).renderAfter depth before =
      String.ofList (textOf (openTagChunks statement.name arguments)) ++
        Forest.renderAfter (depth + 1) .midLine f ++
        String.ofList (textOf (trailing ++ [.closeTag name blanks])) := by
  have hfresh := h.isFreshOriginOf
  obtain ⟨_, _, _, _, _, _, heq, -, hkeeps, -⟩ := h.exists_block
  obtain ⟨-, -, rfl, -⟩ := Layout.block.inj heq
  have hshows : Shows source _ core'.origin.fragment := horigin ▸ hfresh.shows
  have hparsed : core'.origin.synthetic = false := horigin ▸ hfresh.parsed
  have hkeeps' : core'.keeps statement.parameters = true := by
    rwa [Core.keeps, horigin]
  rw [hshows.block_eq rfl hparsed hdirty, renewedArguments, if_pos hkeeps']

/-! ## Rows of nodes -/

/-- The statement has the text and the shape of a node. -/
structure Renders (depth : Nat) (t : Tree) (l : Layout) : Prop where
  text_eq : ∀ before, t.renderAfter depth before = String.ofList (textOf l.own)
  shape_eq : l.shape = t.shape

/-- The statements and the gaps before them have the texts of nodes after some text, one by one. -/
inductive LaidOut (depth : Nat) : Ending → Forest → List Layout → Prop
  | nil {before : Ending} : LaidOut depth before [] []
  | cons {before : Ending} {t : Tree} {f : Forest} {l : Layout} {ls : List Layout}
      (hgap : separator depth before t.core.origin = String.ofList (textOf l.gap))
      (ht : l.Renders depth t) (hf : LaidOut depth .midLine f ls) :
      LaidOut depth before (t :: f) (l :: ls)

namespace LaidOut

variable {f g : Forest} {as bs : List Layout}

theorem shapes_eq (h : LaidOut depth before f ls) : shapes ls = Forest.shapes f := by
  induction h with
  | nil => rfl
  | cons _ ht _ ih => rw [shapes, Forest.shapes, ht.shape_eq, ih]

/-- Statements are rendered one after the other. -/
theorem renderAfter_append (h : LaidOut depth before f ls)
    (hls : ∀ l ∈ ls, l.Grammatical ∧ Written l.own) (g : Forest) :
    Forest.renderAfter depth before (f ++ g) = String.ofList (textOf (ownAll ls)) ++
      Forest.renderAfter depth (if f.isEmpty then before else .midLine) g := by
  induction h with
  | nil => simp
  | @cons before t f l ls hgap ht hf ih =>
    obtain ⟨hl, hown⟩ := hls l (by simp)
    -- every statement ends in the middle of a line
    have hafter : (before.after (separator depth before t.core.origin)).after
        (t.renderAfter depth (before.after (separator depth before t.core.origin))) = .midLine := by
      rw [ht.text_eq]
      exact hl.after_own hown.isLexical _
    have hnext : (if f.isEmpty then Ending.midLine else .midLine) = .midLine := ite_self _
    rw [List.cons_append, Forest.renderAfter, hafter, ih fun m hm => hls m (by simp [hm]), hgap,
      ht.text_eq, ownAll_cons, hnext]
    simp [String.ofList_append, String.append_assoc]

theorem renderAfter_eq (h : LaidOut depth before f ls)
    (hls : ∀ l ∈ ls, l.Grammatical ∧ Written l.own) :
    Forest.renderAfter depth before f = String.ofList (textOf (ownAll ls)) := by
  have := h.renderAfter_append hls []
  rwa [List.append_nil, Forest.renderAfter, String.append_empty] at this

theorem append (hf : LaidOut depth before f as)
    (hg : LaidOut depth (if f.isEmpty then before else .midLine) g bs) :
    LaidOut depth before (f ++ g) (as ++ bs) := by
  induction hf with
  | nil => exact hg
  | cons hgap ht hf ih =>
    refine .cons hgap ht (ih ?_)
    cases hf <;> simpa using hg

end LaidOut

/-- Nodes that were just opened are rendered to their layouts, after renewed gaps. -/
theorem laidOut_of_isOpenedAs {f : Forest} (h : List.Forall₂ (IsOpenedAs source) ls f) (depth : Nat)
    (before : Ending) : LaidOut depth before f (renewGaps before ls) := by
  induction h generalizing before with
  | nil => exact .nil
  | @cons l t ls f hl hf ih =>
    have hfresh := hl.isFreshOriginOf
    refine .cons ?_ ⟨fun e => ?_, ?_⟩ (ih .midLine)
    · rw [withGap_gap, hfresh.separator_eq]
    · rw [withGap_own, hl.renderAfter_eq]
    · rw [withGap_shape, hl.shape_eq]

end Layout

/-! ## What stands in a block -/

/-- The page is what stands in a block that was just opened, before its close tag or the end of the
text. -/
structure Page.Fills (source : SourceFile) (p : Page) (closing : List Chunk) (t : Tree) : Prop where
  opened : List.Forall₂ (Layout.IsOpenedAs source) p.statements t.children
  legible : Layout.LegibleAll t.core.origin.isDocument p.trailing closing p.statements
  trailing_eq : t.core.origin.fragment.slice t.core.origin.fragment.trailing =
    String.ofList (textOf p.trailing)
  closing : closing = [] ∧ t.core.origin.isDocument = true ∨
    (∃ name blanks, closing = [.closeTag name blanks]) ∧ t.core.origin.isDocument = false

namespace Page.Fills

variable {source : SourceFile} {p : Page} {closing : List Chunk}

theorem separatedAll (h : p.Fills source closing t) :
    Layout.SeparatedAll t.core.origin.isDocument p.trailing p.statements := by
  refine h.legible.separatedAll (fun hnil => ?_) fun y hy => ?_
  · rcases h.closing with ⟨-, hdocument⟩ | ⟨⟨name, blanks, rfl⟩, -⟩
    · exact hdocument
    · simp at hnil
  · rcases h.closing with ⟨rfl, -⟩ | ⟨⟨name, blanks, rfl⟩, -⟩
    · simp at hy
    · obtain rfl : Chunk.closeTag name blanks = y := by simpa using hy
      rfl

/-- What stands in a block inside. -/
theorem exists_inside {l : Layout} {core : Core} {statement : Statement} {children : Forest}
    (h : l.IsOpenedAs source (.block core statement children)) (hl : l.Grammatical)
    (hw : Written l.own) :
    ∃ gap arguments inside trailing closing blanks,
      l = .block gap statement.name arguments inside trailing closing blanks ∧
      Page.Fills source ⟨inside, trailing⟩ [.closeTag closing blanks]
        (.block core statement children) := by
  have hfresh := h.isFreshOriginOf
  obtain ⟨gap, arguments, inside, trailing, closing, blanks, rfl, -, -, hinside⟩ := h.exists_block
  have hshows : Layout.Shows source _ core.origin.fragment := hfresh.shows
  have hdocument : core.origin.isDocument = false := hshows.isDocument_eq_false
  rw [Layout.own] at hw
  refine ⟨gap, arguments, inside, trailing, closing, blanks, rfl, hinside, ?_, ?_,
    .inr ⟨⟨closing, blanks, rfl⟩, hdocument⟩⟩
  · rw [Tree.core, hdocument]
    exact ⟨hl.2.2.1, (Written.append_iff.1 hw).2.1⟩
  · rw [Layout.Shows] at hshows
    rw [Tree.core, hshows.2.2.slice_eq, hshows.2.2.trailing.slice_eq]

/-- A block with other statements inside is rendered between its tags. -/
theorem exists_renders_block {gap arguments trailing : List Chunk} {inside ls : List Layout}
    {name : String} {blanks : List Char} {core core' : Core} {statement : Statement}
    {children f : Forest} {depth : Nat}
    (h : (Layout.block gap statement.name arguments inside trailing name blanks).IsOpenedAs source
      (.block core statement children))
    (hl : (Layout.block gap statement.name arguments inside trailing name blanks).Grammatical)
    (hw : Written (Layout.block gap statement.name arguments inside trailing name blanks).own)
    (horigin : core'.origin = core.origin) (hdirty : core'.dirty = true)
    (hf : Layout.LaidOut (depth + 1) .midLine f ls) (hls : Layout.SeparatedAll false trailing ls) :
    ∃ l : Layout, l.Renders depth (.block core' statement f) ∧ l.gap = gap ∧ l.Grammatical ∧
      Written l.own ∧ ∀ last gap', l.EndsBefore last gap' := by
  obtain ⟨_, _, _, _, _, _, heq, hparameters, -⟩ := h.exists_block
  obtain ⟨-, -, rfl, -⟩ := Layout.block.inj heq
  rw [Layout.own] at hw
  obtain ⟨htag, hbody, -⟩ := Written.append_iff.1 hw
  have hclose : Written [Chunk.closeTag name blanks] := by
    rw [← List.append_assoc] at hbody
    exact (Written.append_iff.1 hbody).2.1
  obtain ⟨ls', trailing', htext, hshapes, hlegible, -⟩ := hls.exists_legible hclose (by simp)
  refine ⟨.block gap statement.name arguments ls' trailing' name blanks, ⟨fun before => ?_, ?_⟩,
    rfl, ⟨hl.1, hl.2.1, hlegible.grammatical, hl.2.2.2⟩, ?_, ?_⟩
  · have hinside : textOf (Layout.ownAll ls' ++ (trailing' ++ [.closeTag name blanks])) =
        textOf (Layout.ownAll ls ++ (trailing ++ [.closeTag name blanks])) := by
      rw [← List.append_assoc, ← List.append_assoc, textOf_append, htext, ← textOf_append]
    rw [h.renderAfter_block horigin hdirty, hf.renderAfter_eq hls.forall_written, Layout.own,
      textOf_append (openTagChunks _ _), hinside, textOf_append (Layout.ownAll ls),
      String.ofList_append, String.ofList_append, String.append_assoc]
  · rw [Layout.shape, Tree.shape, hshapes, hf.shapes_eq, hparameters]
  · rw [Layout.own, Written.append_iff]
    refine ⟨htag, hlegible.written, fun x hx y _ => ?_⟩
    obtain rfl : Chunk.tagEnd = x := by simpa [getLast?_openTagChunks] using hx
    rfl
  · intro last gap' x hx t ht
    obtain rfl : Chunk.closeTag name blanks = x := by
      simpa [Layout.own, List.getLast?_append] using hx
    obtain rfl := Option.some.inj ht
    rfl

/-- A child of the block and the statements around it, after renewed gaps. -/
theorem separated_at {as : Forest} {las lbs : List Layout} {l : Layout}
    (h : p.Fills source closing t) (hstatements : p.statements = las ++ l :: lbs)
    (has : List.Forall₂ (Layout.IsOpenedAs source) las as) (before : Ending) :
    Layout.SeparatedAll false (renewedGap (if as.isEmpty then before else .midLine) l.gap)
        (Layout.renewGaps before las) ∧
      Gap (renewedGap (if as.isEmpty then before else .midLine) l.gap) ∧
      l.Grammatical ∧ Written l.own ∧
      Layout.SeparatedAll t.core.origin.isDocument p.trailing (Layout.renewGaps .midLine lbs) := by
  have hempty : las.isEmpty = as.isEmpty := by
    cases has <;> rfl
  have hseparated := h.separatedAll
  rw [hstatements] at hseparated
  obtain ⟨-, hl, hown, -⟩ := (Layout.separatedAll_append.1 hseparated).2
  have hrenewed := hseparated.renew before
  rw [Layout.renewGaps_append, Layout.renewGaps, Layout.separatedAll_append, hempty,
    Layout.nextGap, Layout.withGap_gap, List.isEmpty_cons, Bool.and_false] at hrenewed
  obtain ⟨hbefore, hlead, -, -, -, hafter⟩ := hrenewed
  rw [Layout.withGap_gap] at hlead
  exact ⟨hbefore, hlead, hl, hown, hafter⟩

/-- An edit at a path leaves the statements around it in their places. -/
theorem exists_laidOut_editAt (h : p.Fills source closing t) (hb : t.at? path = some b)
    (hblock : b.isBlock = true)
    (hk : ∀ {q : Page} {closing' : List Chunk}, q.Fills source closing' b → ∀ depth before,
      ∃ ls, Layout.LaidOut depth before (k b.children) ls ∧
        Layout.SeparatedAll b.core.origin.isDocument q.trailing ls)
    (depth : Nat) (before : Ending) :
    ∃ ls, Layout.LaidOut depth before (t.editAt k path).children ls ∧
      Layout.SeparatedAll t.core.origin.isDocument p.trailing ls := by
  induction path generalizing t p closing depth before with
  | nil =>
    obtain rfl := Option.some.inj hb
    obtain ⟨ls, hlaid, hls⟩ := hk h depth before
    refine ⟨ls, ?_, hls⟩
    obtain ⟨core, statement, children, rfl⟩ := Tree.exists_of_isBlock hblock
    exact hlaid
  | cons i path ih =>
    obtain ⟨as, c, bs, hchildren, rfl, hc⟩ := Tree.at?_cons.1 hb
    obtain ⟨core, statement, rfl⟩ := Tree.eq_block_of_children_ne hchildren
    obtain ⟨inner, innerStatement, children, rfl⟩ :=
      Tree.exists_of_isBlock (Tree.isBlock_of_at? hc hblock)
    obtain ⟨las, lc, lbs, hstatements, has, hlc, hbs⟩ := exists_of_forall₂_append_cons h.opened
    obtain ⟨hbefore, hlead, hl, hown, hafter⟩ := h.separated_at hstatements has before
    -- the block is rendered from what the edit leaves inside
    obtain ⟨gap, arguments, inside, trailing, name, blanks, rfl, hinside⟩ :=
      exists_inside hlc hl hown
    obtain ⟨core', f, hedit, horigin, hdirty⟩ :=
      Tree.exists_editAt_eq k path inner innerStatement children
    obtain ⟨ls, hlaid, hls⟩ := ih hinside hc (depth + 1) .midLine
    have hfresh := hlc.isFreshOriginOf
    have hshows : Layout.Shows source _ inner.origin.fragment := hfresh.shows
    rw [hedit, Tree.children] at hlaid
    rw [Tree.core, hshows.isDocument_eq_false] at hls
    obtain ⟨l, hrenders, rfl, hgrammatical, hwritten, hends⟩ :=
      exists_renders_block hlc hl hown horigin hdirty hlaid hls
    -- it stands after the same gap, and ends with the same tag
    rw [Layout.gap] at hbefore hlead
    refine ⟨Layout.renewGaps before las ++ l.withGap (renewedGap
      (if as.isEmpty then before else .midLine) l.gap) :: Layout.renewGaps .midLine lbs, ?_, ?_⟩
    · rw [Tree.editAt, modify_length_append, hedit, Tree.children]
      refine (Layout.laidOut_of_isOpenedAs has depth before).append (.cons ?_ ⟨fun e => ?_, ?_⟩
        (Layout.laidOut_of_isOpenedAs hbs depth .midLine))
      · rw [Layout.withGap_gap, Tree.core, horigin]
        exact hfresh.separator_eq depth _
      · rw [Layout.withGap_own, hrenders.text_eq]
      · rw [Layout.withGap_shape, hrenders.shape_eq]
    · rw [Layout.separatedAll_append]
      refine ⟨?_, by rwa [Layout.withGap_gap], hgrammatical.withGap hlead.all_isGap,
        by rwa [Layout.withGap_own], ?_, hafter⟩
      · rwa [Layout.nextGap, Layout.withGap_gap, List.isEmpty_cons, Bool.and_false]
      · simpa [Layout.EndsBefore] using hends _ _

end Page.Fills

/-! ## Where a block may be edited -/

/-- The last token of the text a node was read from. -/
def Tree.lastToken? (t : Tree) : Option Token := HttpdConf.lastToken? t.core.origin.fragment.text

/-- What rendering writes before a child of a block, or after the last one. -/
def Tree.gapAt (b : Tree) (i : Nat) : List Char :=
  match b.children[i]? with
  | some c => (separator 0 .midLine c.core.origin).toList
  | none => (b.core.origin.fragment.slice b.core.origin.fragment.trailing).toList

/-- Whether a statement with this last token ends before a child of a block, or before the end of
the block. -/
def Tree.admits (b : Tree) (i : Nat) (t : Token) : Bool :=
  t.endsBefore (b.core.origin.isDocument && b.children.length ≤ i) (b.gapAt i)

/-- Whether a child of a block can be deleted: the one before it ends before the one after it. -/
def Tree.admitsDelete (b : Tree) (i : Nat) : Bool :=
  i == 0 || (b.children[i - 1]?.bind Tree.lastToken?).all (b.admits (i + 1))

/-- The last token of a new node. -/
def NodeContent.lastToken : NodeContent → Token
  | comment text => .comment text
  | directive name parameters => .word (parameters.getLastD name)
  | block name _ => .closeTag name

/-- Whether a node can be added before a child of a block: the one before it ends before a new
line, and the new one ends before the child. -/
def Tree.admitsInsert (b : Tree) (i : Nat) (content : NodeContent) : Bool :=
  (i == 0 || (b.children[i - 1]?.bind Tree.lastToken?).all (Token.endsBefore false ['\n'])) &&
    b.admits i content.lastToken

namespace Layout

variable {source : SourceFile} {l : Layout} {depth : Nat} {last : Bool} {gap : List Chunk}

/-- Whether a statement ends before a gap can be seen from its text. -/
theorem IsOpenedAs.endsBefore_iff (h : l.IsOpenedAs source t) (hl : l.Grammatical)
    (hw : Written l.own) :
    l.EndsBefore last gap ↔ t.lastToken?.all (·.endsBefore last (textOf gap)) = true := by
  obtain ⟨x, token, hx, htoken, -⟩ := hl.exists_getLast?
  have hlast : t.lastToken? = some token := by
    rw [Tree.lastToken?, h.isFreshOriginOf.shows.text]
    exact lastToken?_textOf hw hx htoken
  simp [EndsBefore, hx, htoken, hlast]

/-- The layout of a new node. -/
def ofContent (gap : List Chunk) (depth : Nat) : NodeContent → Layout
  | .comment text => .comment gap (commentLine text)
  | .directive name parameters => .directive gap name (parameterChunks parameters)
  | .block name parameters =>
    .block gap name (parameterChunks parameters) [] (newLine depth) name []

variable {content : NodeContent}

theorem ofContent_gap : (ofContent gap depth content).gap = gap := by
  cases content <;> rfl

/-- A new node is rendered to its layout. -/
theorem renders_ofContent (hplain : content.isPlain = true) (gap : List Chunk) (depth : Nat)
    (core : Core) (next : NodeId) :
    (ofContent gap depth content).Renders depth
      (content.tree (core.child next) true []).forget := by
  cases content with
  | comment text =>
    refine ⟨fun before => ?_, ?_⟩
    · simp [NodeContent.tree, Tree.forget, Tree.mapStatements, Tree.renderAfter, Core.child,
        Origin.derived, ofContent, own]
    · rw [ofContent, shape, commentText_commentLine hplain]
      simp [NodeContent.tree, Tree.forget, Tree.mapStatements, Tree.shape]
  | directive name parameters =>
    refine ⟨fun before => ?_, ?_⟩
    · have htext := textOf_line name parameters none
      rw [ofContent, own, ← htext, String.ofList_toList]
      simp [NodeContent.tree, Tree.forget, Tree.mapStatements, Tree.renderAfter, Core.child,
        Origin.derived, Core.keeps]
    · rw [ofContent, shape, gatherArguments_parameterChunks]
      simp [NodeContent.tree, Tree.forget, Tree.mapStatements, Tree.shape]
  | block name parameters =>
    refine ⟨fun before => ?_, ?_⟩
    · have htext := @Tree.render_new_block (core.child next) ⟨name, parameters, none⟩ rfl [] depth
        before
      rw [NodeContent.tree, Tree.forget_block, List.map_nil, ← String.toList_inj, htext, ofContent,
        own]
      simp [Forest.renderAfter]
    · rw [ofContent, shape, tagArguments_parameterChunks]
      simp [NodeContent.tree, Tree.forget_block, Tree.shape, shapes, Forest.shapes]

theorem grammatical_ofContent (hgap : gap.all Chunk.isGap = true) :
    (ofContent gap depth content).Grammatical := by
  cases content with
  | comment text => exact hgap
  | directive name parameters =>
    exact ⟨hgap, all_isArgument_parameterChunks _, token_getLast?_parameterChunks _⟩
  | block name parameters =>
    exact ⟨hgap, all_isTagArgument_parameterChunks _, (loose_newLine depth).all_isGap,
      Text.sameName_refl _⟩

theorem written_ofContent (hplain : content.isPlain = true) :
    Written (ofContent gap depth content).own := by
  cases content with
  | comment text =>
    rw [ofContent, own, Written.cons_iff]
    exact ⟨isLexical_comment hplain, .nil, by simp⟩
  | directive name parameters =>
    simp only [NodeContent.isPlain, Bool.and_eq_true] at hplain
    rw [ofContent, own]
    exact written_directiveLine (isLexical_word hplain.1) (List.all_eq_true.1 hplain.2)
  | block name parameters =>
    simp only [NodeContent.isPlain, Bool.and_eq_true] at hplain
    rw [ofContent, own, ownAll_nil, List.nil_append, Written.append_iff]
    refine ⟨written_tagLine (isLexical_openTag hplain.1) (List.all_eq_true.1 hplain.2), ?_, ?_⟩
    · exact (loose_newLine depth).written_append
        (Written.cons_iff.2 ⟨isLexical_closeTag hplain.1, .nil, by simp⟩)
    · intro x hx y _
      obtain rfl : Chunk.tagEnd = x := by simpa [getLast?_openTagChunks] using hx
      rfl

theorem isQuotedLiteral_getLast? {s : String} (h : isQuotedLiteral s = true) :
    s.toList.getLast? = some '"' := by
  unfold isQuotedLiteral at h
  split at h
  · rename_i body hbody
    rw [hbody, List.getLast?_cons, spanQuoted?_getLast? (beq_iff_eq.1 h)]
    rfl
  · simp at h

theorem endsLine_newLine (depth : Nat) : endsLine (textOf (newLine depth)) = true := by
  rw [endsLine_textOf (by simpa using (loose_newLine depth).written_append .nil)]
  rfl

/-- Where a new node ends is up to its last token. -/
theorem endsBefore_ofContent (hplain : content.isPlain = true) {gap' : List Chunk} :
    (ofContent gap depth content).EndsBefore last gap' ↔
      content.lastToken.endsBefore last (textOf gap') = true := by
  cases content with
  | comment text => simp [ofContent, EndsBefore, own, NodeContent.lastToken, Token.endsBefore]
  | directive name parameters =>
    rw [ofContent, EndsBefore, own, List.getLast?_cons, getLast?_parameterChunks,
      NodeContent.lastToken, List.getLastD_eq_getLast?]
    cases hlast : parameters.getLast? with
    | none => simp
    | some q =>
      simp only [Option.map_some, Option.getD_some, Option.mem_def, Option.some.injEq,
        forall_eq']
      -- a quoted literal does not end in a backslash
      unfold Chunk.parameter
      split
      · simp
      · rename_i hword
        simp only [NodeContent.isPlain, Bool.and_eq_true, List.all_eq_true] at hplain
        have hq := hplain.2 q (List.mem_of_getLast? hlast)
        have hquoted : isQuotedLiteral q = true := by simpa [isPlainParameter, hword] using hq
        simp [Token.endsBefore, isQuotedLiteral_getLast? hquoted]
  | block name parameters =>
    simp [ofContent, EndsBefore, own, NodeContent.lastToken, Token.endsBefore, List.getLast?_append]

end Layout

namespace Page.Fills

variable {source : SourceFile} {p : Page} {closing : List Chunk} {as bs : Forest}
  {las lbs : List Layout}

/-- The gap at a place of a block is the one that rendering puts there. -/
theorem gapAt_eq (h : p.Fills source closing b) (hchildren : b.children = as ++ bs)
    (hbs : List.Forall₂ (Layout.IsOpenedAs source) lbs bs) :
    b.gapAt as.length = textOf (Layout.nextGap p.trailing (Layout.renewGaps .midLine lbs)) := by
  rw [Tree.gapAt, hchildren]
  cases hbs with
  | nil =>
    rw [List.getElem?_eq_none (by simp), h.trailing_eq, String.toList_ofList]
    rfl
  | cons hl _ =>
    rw [List.getElem?_append_right (Nat.le_refl _), Nat.sub_self, List.getElem?_cons_zero]
    simp only [hl.isFreshOriginOf.separator_eq, String.toList_ofList, Layout.renewGaps,
      Layout.nextGap, Layout.withGap_gap]

/-- Which statements end at a place of a block. -/
theorem admits_eq (h : p.Fills source closing b) (hchildren : b.children = as ++ bs)
    (hbs : List.Forall₂ (Layout.IsOpenedAs source) lbs bs) (token : Token) :
    b.admits as.length token =
      token.endsBefore (b.core.origin.isDocument && (Layout.renewGaps .midLine lbs).isEmpty)
        (textOf (Layout.nextGap p.trailing (Layout.renewGaps .midLine lbs))) := by
  have hempty : decide (b.children.length ≤ as.length) =
      (Layout.renewGaps .midLine lbs).isEmpty := by
    rw [hchildren]
    cases hbs <;> simp [Layout.renewGaps]
  rw [Tree.admits, h.gapAt_eq hchildren hbs, hempty]

/-- Whether the statement before a place of a block ends before a gap. -/
theorem forall_endsBefore_iff (h : p.Fills source closing b) (hchildren : b.children = as ++ bs)
    (hstatements : p.statements = las ++ lbs)
    (has : List.Forall₂ (Layout.IsOpenedAs source) las as) {last : Bool} {gap : List Chunk} :
    (∀ l ∈ las.getLast?, l.EndsBefore last gap) ↔
      as.length = 0 ∨ (b.children[as.length - 1]?.bind Tree.lastToken?).all
        (·.endsBefore last (textOf gap)) = true := by
  rcases as.eq_nil_or_concat with rfl | ⟨as, a, rfl⟩
  · cases has
    simp
  rw [List.concat_eq_append] at hchildren has ⊢
  obtain ⟨las, l, hnil, rfl, has, hl, hrest⟩ := exists_of_forall₂_append_cons has
  cases hrest
  have hseparated := h.separatedAll
  rw [hstatements, List.append_assoc] at hseparated
  obtain ⟨-, hgrammatical, hwritten, -⟩ := (Layout.separatedAll_append.1 hseparated).2
  simp [hchildren, hl.endsBefore_iff hgrammatical hwritten]

/-- Whether a child of a block can be deleted is up to the statement before it. -/
theorem admitsDelete_iff (h : p.Fills source closing b) (hchildren : b.children = as ++ c :: bs)
    {lc : Layout} (hstatements : p.statements = las ++ lc :: lbs)
    (has : List.Forall₂ (Layout.IsOpenedAs source) las as)
    (hbs : List.Forall₂ (Layout.IsOpenedAs source) lbs bs) :
    b.admitsDelete as.length = true ↔ ∀ l ∈ las.getLast?,
      l.EndsBefore (b.core.origin.isDocument && (Layout.renewGaps .midLine lbs).isEmpty)
        (Layout.nextGap p.trailing (Layout.renewGaps .midLine lbs)) := by
  have hchildren' : b.children = (as ++ [c]) ++ bs := by simp [hchildren]
  have hadmits := h.admits_eq hchildren' hbs
  rw [List.length_append, List.length_singleton] at hadmits
  rw [h.forall_endsBefore_iff hchildren hstatements has, Tree.admitsDelete, Bool.or_eq_true,
    beq_iff_eq, funext hadmits]

/-- The statements around a child of a block, after renewed gaps. -/
theorem separatedAll_around (h : p.Fills source closing b) (before : Ending)
    (hstatements : p.statements = las ++ lbs) :
    (∃ last gap, Layout.SeparatedAll last gap (Layout.renewGaps before las)) ∧
      ∀ e, Layout.SeparatedAll b.core.origin.isDocument p.trailing (Layout.renewGaps e lbs) := by
  have hseparated := h.separatedAll
  rw [hstatements, Layout.separatedAll_append] at hseparated
  exact ⟨⟨_, _, hseparated.1.renew before⟩, hseparated.2.renew⟩

/-- Without one of its children, the statements of a block are separated if the child could be
deleted. -/
theorem separatedAll_delete (h : p.Fills source closing b) (hchildren : b.children = as ++ c :: bs)
    {lc : Layout} (hstatements : p.statements = las ++ lc :: lbs)
    (has : List.Forall₂ (Layout.IsOpenedAs source) las as)
    (hbs : List.Forall₂ (Layout.IsOpenedAs source) lbs bs)
    (hadmits : b.admitsDelete as.length = true) (before : Ending) :
    Layout.SeparatedAll b.core.origin.isDocument p.trailing
      (Layout.renewGaps before (las ++ lbs)) := by
  have hends := (h.admitsDelete_iff hchildren hstatements has hbs).1 hadmits
  have hstatements' : p.statements = (las ++ [lc]) ++ lbs := by simp [hstatements]
  obtain ⟨⟨last, gap, hlas⟩, -⟩ := h.separatedAll_around before hstatements
  have hlbs := (h.separatedAll_around before hstatements').2
  rw [Layout.renewGaps_append, Layout.separatedAll_append]
  refine ⟨hlas.before_gap (hlbs _).gap_nextGap fun l hl => ?_, hlbs _⟩
  obtain ⟨m, hm, hown⟩ := Layout.exists_of_mem_getLast?_renewGaps hl
  have hne : las.isEmpty = false := by
    cases las <;> simp_all
  simpa [Layout.EndsBefore, hown, hne] using hends m hm

/-- What rendering writes before a new node. -/
def newGap (depth : Nat) (before : Ending) : List Chunk :=
  if before = .nothing then [] else newLine depth

theorem separator_child (core : Core) (next : NodeId) (depth : Nat) (before : Ending) :
    separator depth before (core.child next).origin =
      String.ofList (textOf (newGap depth before)) := by
  have hnew : (core.child next).origin.synthetic = true := rfl
  rw [separator, if_pos hnew, newGap]
  split
  · rfl
  · rw [textOf_newLine, String.ofList_toList]

/-- Whether a node can be added is up to the statement before it and its own last token. -/
theorem admitsInsert_iff (h : p.Fills source closing b) (hchildren : b.children = as ++ bs)
    (hstatements : p.statements = las ++ lbs)
    (has : List.Forall₂ (Layout.IsOpenedAs source) las as)
    (hbs : List.Forall₂ (Layout.IsOpenedAs source) lbs bs) {content : NodeContent}
    (hplain : content.isPlain = true) (gap : List Chunk) (depth : Nat) :
    b.admitsInsert as.length content = true ↔
      (∀ l ∈ las.getLast?, l.EndsBefore false (newLine depth)) ∧
      (Layout.ofContent gap depth content).EndsBefore
        (b.core.origin.isDocument && (Layout.renewGaps .midLine lbs).isEmpty)
        (Layout.nextGap p.trailing (Layout.renewGaps .midLine lbs)) := by
  have hline : (fun t : Token => t.endsBefore false (textOf (newLine depth))) =
      Token.endsBefore false ['\n'] := by
    have hsingle : endsLine ['\n'] = true := Layout.endsLine_newLine 0
    have hdepth := Layout.endsLine_newLine depth
    funext t
    rw [newLine, textOf_cons] at hdepth ⊢
    cases t <;> simp_all [Token.endsBefore, endsComment, startsWithBreak]
  rw [h.forall_endsBefore_iff hchildren hstatements has, hline,
    Layout.endsBefore_ofContent hplain, Tree.admitsInsert, Bool.and_eq_true, Bool.or_eq_true,
    beq_iff_eq, h.admits_eq hchildren hbs]

theorem newGap_eq_or (depth : Nat) (before : Ending) (as : Forest) :
    newGap depth (if as.isEmpty then before else .midLine) = newLine depth ∨
      as = [] ∧ newGap depth (if as.isEmpty then before else .midLine) = [] := by
  cases as with
  | nil => by_cases hbefore : before = .nothing <;> simp [newGap, hbefore]
  | cons a as => exact .inl rfl

theorem gap_newGap (depth : Nat) (before : Ending) : Gap (newGap depth before) := by
  unfold newGap
  split
  · exact loose_nil.gap
  · exact (loose_newLine depth).gap

/-- The statements before a new node are separated if the last of them ends before a new line. -/
theorem separatedAll_newGap (h : p.Fills source closing b) (hstatements : p.statements = las ++ lbs)
    (has : List.Forall₂ (Layout.IsOpenedAs source) las as) {depth : Nat}
    (hends : ∀ l ∈ las.getLast?, l.EndsBefore false (newLine depth)) (before : Ending) :
    Layout.SeparatedAll false (newGap depth (if as.isEmpty then before else .midLine))
      (Layout.renewGaps before las) := by
  obtain ⟨⟨last, gap, hlas⟩, -⟩ := h.separatedAll_around before hstatements
  refine hlas.before_gap (gap_newGap _ _) fun l hl => ?_
  obtain ⟨m, hm, hown⟩ := Layout.exists_of_mem_getLast?_renewGaps hl
  rcases newGap_eq_or depth before as with heq | ⟨rfl, -⟩
  · rw [heq]
    simpa [Layout.EndsBefore, hown] using hends m hm
  · cases has
    simp at hm

/-- With a node more, the statements of a block are separated if the node could be added. -/
theorem separatedAll_insert (h : p.Fills source closing b) (hchildren : b.children = as ++ bs)
    (hstatements : p.statements = las ++ lbs)
    (has : List.Forall₂ (Layout.IsOpenedAs source) las as)
    (hbs : List.Forall₂ (Layout.IsOpenedAs source) lbs bs) {content : NodeContent}
    (hplain : content.isPlain = true) (hadmits : b.admitsInsert as.length content = true)
    (depth : Nat) (before : Ending) :
    Layout.SeparatedAll b.core.origin.isDocument p.trailing
      (Layout.renewGaps before las ++
        Layout.ofContent (newGap depth (if as.isEmpty then before else .midLine)) depth content ::
          Layout.renewGaps .midLine lbs) := by
  have hgap := gap_newGap depth (if as.isEmpty then before else .midLine)
  obtain ⟨hends, hends'⟩ :=
    (h.admitsInsert_iff hchildren hstatements has hbs hplain _ depth).1 hadmits
  have hlbs := (h.separatedAll_around before hstatements).2
  rw [Layout.separatedAll_append, Layout.nextGap, Layout.ofContent_gap, List.isEmpty_cons,
    Bool.and_false]
  refine ⟨h.separatedAll_newGap hstatements has hends before, ?_,
    Layout.grammatical_ofContent hgap.all_isGap, Layout.written_ofContent hplain, hends',
    hlbs .midLine⟩
  rwa [Layout.ofContent_gap]

/-- A block without one of its children. -/
theorem exists_laidOut_delete (h : p.Fills source closing b)
    (hchildren : b.children = as ++ c :: bs)
    (hk : k b.children = as ++ bs) (hadmits : b.admitsDelete as.length = true) (depth : Nat)
    (before : Ending) :
    ∃ ls, Layout.LaidOut depth before (k b.children) ls ∧
      Layout.SeparatedAll b.core.origin.isDocument p.trailing ls := by
  have hopened := h.opened
  rw [hchildren] at hopened
  obtain ⟨las, lc, lbs, hstatements, has, -, hbs⟩ := exists_of_forall₂_append_cons hopened
  rw [hk]
  exact ⟨_, Layout.laidOut_of_isOpenedAs (List.rel_append has hbs) depth before,
    h.separatedAll_delete hchildren hstatements has hbs hadmits before⟩

/-- The statements of a block with a child more. -/
theorem laidOut_insert (has : List.Forall₂ (Layout.IsOpenedAs source) las as)
    (hbs : List.Forall₂ (Layout.IsOpenedAs source) lbs bs) {content : NodeContent}
    (hplain : content.isPlain = true) (core : Core) (next : NodeId) (depth : Nat)
    (before : Ending) :
    Layout.LaidOut depth before (as ++ (content.tree (core.child next) true []).forget :: bs)
      (Layout.renewGaps before las ++
        Layout.ofContent (newGap depth (if as.isEmpty then before else .midLine)) depth content ::
          Layout.renewGaps .midLine lbs) := by
  refine (Layout.laidOut_of_isOpenedAs has depth before).append (.cons ?_
    (Layout.renders_ofContent hplain _ depth core next)
    (Layout.laidOut_of_isOpenedAs hbs depth .midLine))
  rw [Layout.ofContent_gap, Tree.forget_core, NodeContent.tree_core, separator_child]

/-- A block with a child more. -/
theorem exists_laidOut_insert (h : p.Fills source closing b) (hchildren : b.children = as ++ bs)
    {content : NodeContent} {core : Core} {next : NodeId}
    (hk : k b.children = as ++ (content.tree (core.child next) true []).forget :: bs)
    (hplain : content.isPlain = true) (hadmits : b.admitsInsert as.length content = true)
    (depth : Nat) (before : Ending) :
    ∃ ls, Layout.LaidOut depth before (k b.children) ls ∧
      Layout.SeparatedAll b.core.origin.isDocument p.trailing ls := by
  have hopened := h.opened
  rw [hchildren] at hopened
  have has := List.forall₂_take_append _ _ _ hopened
  have hbs := List.forall₂_drop_append _ _ _ hopened
  have hstatements := (List.take_append_drop as.length p.statements).symm
  rw [hk]
  exact ⟨_, laidOut_insert has hbs hplain core next depth before,
    h.separatedAll_insert hchildren hstatements has hbs hplain hadmits depth before⟩

end Page.Fills

/-! ## Whole documents -/

theorem Tree.at?_forget (t : Tree) (path : List Nat) :
    t.forget.at? path = (t.at? path).map Tree.forget := by
  induction path generalizing t with
  | nil => rfl
  | cons i path ih =>
    rw [Tree.at?, Tree.at?, Tree.forget_children, List.getElem?_map]
    cases t.children[i]? with
    | none => rfl
    | some c => exact ih c

theorem Tree.admits_forget (b : Tree) : b.forget.admits = b.admits := by
  funext i token
  have hgap : b.forget.gapAt i = b.gapAt i := by
    rw [Tree.gapAt, Tree.gapAt, Tree.forget_children, List.getElem?_map, Tree.forget_core]
    cases b.children[i]? with
    | none => rfl
    | some c => simp
  rw [Tree.admits, Tree.admits, hgap, Tree.forget_core, Tree.forget_children, List.length_map]

theorem Tree.lastToken?_forget (b : Tree) (i : Nat) :
    b.forget.children[i]?.bind Tree.lastToken? = b.children[i]?.bind Tree.lastToken? := by
  rw [Tree.forget_children, List.getElem?_map]
  cases b.children[i]? with
  | none => rfl
  | some c => simp [Tree.lastToken?]

theorem Tree.admitsDelete_forget (b : Tree) (i : Nat) :
    b.forget.admitsDelete i = b.admitsDelete i := by
  rw [Tree.admitsDelete, Tree.admitsDelete, Tree.admits_forget, Tree.lastToken?_forget]

theorem Tree.admitsInsert_forget (b : Tree) (i : Nat) (content : NodeContent) :
    b.forget.admitsInsert i content = b.admitsInsert i content := by
  rw [Tree.admitsInsert, Tree.admitsInsert, Tree.admits_forget, Tree.lastToken?_forget]

variable {source : SourceFile} {policy : Policy} {document : Fragment} {p : Page}

/-- A page that was read stands in the root block. -/
theorem Page.Shows.fills_opened (h : p.Shows source document) (hp : p.Legible) (policy : Policy) :
    p.Fills source [] (Sheet.opened document policy).tree := by
  have hdocument : (Core.opened document policy).origin.isDocument = true :=
    Origin.isDocument_parsed h.kind_eq
  refine ⟨h.children.isOpenedAs _ _ _, ?_, ?_, .inl ⟨rfl, hdocument⟩⟩
  · rw [Sheet.opened, Tree.core, hdocument]
    exact ⟨hp.grammatical, by simpa [Page.chunks] using hp.written⟩
  · change document.slice document.trailing = _
    rw [h.parts.slice_eq, h.parts.trailing.slice_eq]

/-- A document with separated statements is read back as it is. -/
theorem Page.Shows.exists_read_separated (h : p.Shows source document) {core : Core}
    {standing : Option Bool} {children : Forest} (horigin : core.origin = .parsed document)
    {ls : List Layout} (hlaid : Layout.LaidOut 0 .nothing children ls)
    (hls : Layout.SeparatedAll true p.trailing ls) (path : Path) :
    ∃ document', Fragment.read
        ⟨path, (Tree.block core ⟨"", [], standing⟩ children).renderAfter 0 .nothing⟩ =
          .ok document' ∧
      document'.shape = (Tree.block core ⟨"", [], standing⟩ children).shape := by
  obtain ⟨ls', trailing, htext, hshapes, hlegible, -⟩ := hls.exists_legible .nil fun _ => rfl
  have hp : Page.Legible ⟨ls', trailing⟩ :=
    ⟨by simpa [Page.chunks] using hlegible.written, hlegible.grammatical⟩
  refine h.exists_read_render horigin hp ?_ (hshapes.trans hlaid.shapes_eq) path
  rw [hlaid.renderAfter_eq hls.forall_written, String.toList_ofList, Page.chunks, htext,
    textOf_append]

/-- A file with an edit of one block: what its root block is rendered to. -/
theorem exists_editFile_at {e : Edit} {r : Tree} {w : Workspace} {next : NodeId}
    (h : editFile source policy [] = some (r, w)) (hb : r.at? path = some b)
    (hblock : b.isBlock = true)
    (hedit : ∀ s : Sheet, s = ⟨r.forget, w.next⟩ → s.find? b.id = some b.forget →
      s.edit e = some ⟨r.forget.touch b.id (Tree.withChildren k), next⟩) :
    ∃ document p r' w', p.Legible ∧ Page.Shows source p document ∧
      r.forget = (Sheet.opened document policy).tree ∧
      editFile source policy [e] = some (r', w') ∧
      w'.forest.render [r'] = (r.forget.editAt k path).renderAfter 0 .nothing ∧
      (b.forget.nodes.map Tree.id).Nodup := by
  obtain ⟨document, s, hread, hrun, htended, rfl⟩ := exists_sheet_of_editFile h
  obtain ⟨p, hp, -, hshows⟩ := Fragment.exists_page_of_read hread
  have hopened : r.forget = (Sheet.opened document policy).tree := by
    rw [Option.some.inj hrun]
  -- each number is given once, so the block is found by its number and edited at its path
  have hnodup : (r.forget.nodes.map Tree.id).Nodup := by
    have hids : r.forget.nodes.map Tree.id = r.nodes.map Tree.id := by
      rw [Tree.nodes_forget, List.map_map]
      exact List.map_congr_left fun u _ => Tree.forget_id
    rw [hids]
    exact htended.tidy.nodup_nodes (Forest.mem_nodes_of_mem htended.mem)
  have hb' : r.forget.at? path = some b.forget := by rw [Tree.at?_forget, hb, Option.map_some]
  have hfind : Sheet.find? ⟨r.forget, w.next⟩ b.id = some b.forget := by
    rw [Sheet.find?, ← Tree.forget_id]
    exact Tree.find?_id_eq hnodup (Tree.mem_nodes_of_at? hb')
  obtain ⟨r', w', hfile, hsheet⟩ := exists_editFile h (hedit _ rfl hfind)
  refine ⟨document, p, r', w', hp, hshows, hopened, hfile, ?_,
    hnodup.sublist ((Tree.nodes_sublist _ (Tree.mem_nodes_of_at? hb')).map _)⟩
  have htouch := Tree.touch_eq_editAt (k := k) hnodup hb' (by rwa [Tree.forget_isBlock])
  rw [Tree.forget_id] at htouch
  have hforget : r'.forget = r.forget.editAt k path := by
    rw [← htouch]
    exact (congrArg Sheet.tree hsheet).symm
  obtain ⟨core', children', hroot, horigin, -⟩ := Tree.exists_editAt_eq k path
    (Core.opened document policy) ⟨"", [], none⟩
    (Forest.ofFragments ⟨policy, 0⟩ 0 1 document.children).1
  have hroot' : r'.forget = .block core' ⟨"", [], none⟩ children' := by
    rw [hforget, hopened]
    exact hroot
  rw [← hforget]
  exact Forest.render_of_forget w'.forest hroot' horigin hshows.kind_eq

/-- What an edit of one block does to the shape of a tree, whatever is remembered in it. -/
theorem Tree.shape_forget_editAt {g : List Shape → List Shape} (hb : t.at? path = some b)
    (hblock : b.isBlock = true)
    (hk : Forest.shapes (k b.forget.children) = g (Forest.shapes b.forget.children)) :
    (t.forget.editAt k path).shape = t.shape.editAt g path := by
  have hb' : t.forget.at? path = some b.forget := by rw [Tree.at?_forget, hb, Option.map_some]
  rw [Tree.shape_editAt hb' (by rwa [Tree.forget_isBlock]) hk, Tree.shape_forget]

/-- A document whose statements stay separated in an edit of one block is read back as it is. -/
theorem Page.Shows.exists_read_editAt (h : p.Shows source document) (hp : p.Legible)
    (hopened : t.forget = (Sheet.opened document policy).tree) (hb : t.at? path = some b)
    (hblock : b.isBlock = true)
    (hk : ∀ {q : Page} {closing : List Chunk}, q.Fills source closing b.forget → ∀ depth before,
      ∃ ls, Layout.LaidOut depth before (k b.forget.children) ls ∧
        Layout.SeparatedAll b.forget.core.origin.isDocument q.trailing ls) (file : Path) :
    ∃ document', Fragment.read ⟨file, (t.forget.editAt k path).renderAfter 0 .nothing⟩ =
        .ok document' ∧ document'.shape = (t.forget.editAt k path).shape := by
  have hb' : t.forget.at? path = some b.forget := by rw [Tree.at?_forget, hb, Option.map_some]
  rw [hopened] at hb' ⊢
  have hfills := h.fills_opened hp policy
  obtain ⟨ls, hlaid, hls⟩ :=
    hfills.exists_laidOut_editAt hb' (by rwa [Tree.forget_isBlock]) hk 0 .nothing
  obtain ⟨core', children', hroot, horigin, -⟩ := Tree.exists_editAt_eq k path
    (Core.opened document policy) ⟨"", [], none⟩
    (Forest.ofFragments ⟨policy, 0⟩ 0 1 document.children).1
  have hdocument : (Core.opened document policy).origin.isDocument = true :=
    Origin.isDocument_parsed h.kind_eq
  simp only [Sheet.opened] at hlaid hls ⊢
  rw [hroot] at hlaid ⊢
  rw [Tree.core, hdocument] at hls
  exact h.exists_read_separated horigin hlaid hls file

/-- What a new node says. -/
def NodeContent.shape : NodeContent → Shape
  | comment text => .comment text
  | directive name parameters => .directive name parameters
  | block name parameters => .block name parameters []

/-- What a block without one of its children says. -/
theorem Forest.shapes_delete {as bs : Forest} :
    Forest.shapes (as ++ bs) = (Forest.shapes (as ++ c :: bs)).eraseIdx as.length := by
  simp only [Forest.shapes_eq_map, List.map_append, List.map_cons]
  rw [← List.length_map (f := Tree.shape), eraseIdx_length_append]

/-- What a block with a child more says. -/
theorem Forest.shapes_insert {as bs : Forest} (content : NodeContent) (core : Core)
    (active : Bool) :
    Forest.shapes (as ++ (content.tree core active []).forget :: bs) =
      (Forest.shapes (as ++ bs)).insertIdx as.length content.shape := by
  have hshape : (content.tree core active []).forget.shape = content.shape := by
    cases content <;> rfl
  simp only [Forest.shapes_eq_map, List.map_append, List.map_cons, hshape]
  rw [← List.length_map (f := Tree.shape), insertIdx_length_append]

/-- A file without one of its nodes: what its root block is rendered to. -/
theorem exists_editFile_delete {r : Tree} {w : Workspace} {as bs : Forest}
    (h : editFile source policy [] = some (r, w)) (hb : r.at? path = some b)
    (hchildren : b.children = as ++ c :: bs) :
    ∃ document p r' w' k, p.Legible ∧ Page.Shows source p document ∧
      r.forget = (Sheet.opened document policy).tree ∧
      editFile source policy [.delete b.id c.id] = some (r', w') ∧
      w'.forest.render [r'] = (r.forget.editAt k path).renderAfter 0 .nothing ∧
      (r.forget.editAt k path).shape = r.shape.editAt (·.eraseIdx as.length) path ∧
      k b.forget.children = as.map Tree.forget ++ bs.map Tree.forget := by
  have hblock := Tree.isBlock_of_children_ne hchildren
  have hforget : b.forget.children =
      as.map Tree.forget ++ c.forget :: bs.map Tree.forget := by
    rw [Tree.forget_children, hchildren, List.map_append, List.map_cons]
  have hany : b.forget.children.any (·.id == c.id) = true :=
    List.any_eq_true.2 ⟨c.forget, by simp [hforget], by simp⟩
  have hedit : ∀ s : Sheet, s = ⟨r.forget, w.next⟩ → s.find? b.id = some b.forget →
      s.edit (.delete b.id c.id) = some ⟨r.forget.touch b.id (Tree.withChildren fun children =>
        children.filter (·.id != c.id)), w.next⟩ := by
    rintro s rfl hfind
    rw [Sheet.edit, hfind]
    simp only [hany, if_true]
  obtain ⟨document, p, r', w', hp, hshows, hopened, hfile, hrender, hnodup⟩ :=
    exists_editFile_at h hb hblock hedit
  have hk : b.forget.children.filter (·.id != c.id) =
      as.map Tree.forget ++ bs.map Tree.forget := by
    rw [Tree.nodes_eq, List.map_cons, List.nodup_cons, hforget] at hnodup
    rw [hforget, ← Tree.forget_id]
    exact Tree.filter_id_ne hnodup.2
  refine ⟨document, p, r', w', _, hp, hshows, hopened, hfile, hrender, ?_, hk⟩
  refine Tree.shape_forget_editAt (g := (·.eraseIdx as.length)) hb hblock ?_
  rw [hk, hforget, ← List.length_map (f := Tree.forget), Forest.shapes_delete]

theorem NodeContent.name?_ne_of_isPlain {content : NodeContent} (h : content.isPlain = true) :
    content.name? ≠ some "" := by
  cases content with
  | comment => simp [NodeContent.name?]
  | directive name parameters =>
    rintro hname
    obtain rfl : name = "" := Option.some.inj hname
    simp [NodeContent.isPlain, isPlainWord] at h
  | block name parameters =>
    rintro hname
    obtain rfl : name = "" := Option.some.inj hname
    simp [NodeContent.isPlain, isPlainName] at h

/-- A file with a node more: what its root block is rendered to. -/
theorem exists_editFile_insert {r : Tree} {w : Workspace} {as bs : Forest} {content : NodeContent}
    (h : editFile source policy [] = some (r, w)) (hb : r.at? path = some b)
    (hblock : b.isBlock = true) (hchildren : b.children = as ++ bs)
    (hname : content.name? ≠ some "") :
    ∃ document p r' w' k next, p.Legible ∧ Page.Shows source p document ∧
      r.forget = (Sheet.opened document policy).tree ∧
      editFile source policy [.add b.id content (some as.length)] = some (r', w') ∧
      w'.forest.render [r'] = (r.forget.editAt k path).renderAfter 0 .nothing ∧
      (r.forget.editAt k path).shape =
        r.shape.editAt (·.insertIdx as.length content.shape) path ∧
      k b.forget.children = as.map Tree.forget ++
        (content.tree (b.core.child next) true []).forget :: bs.map Tree.forget := by
  have hforget : b.forget.children = as.map Tree.forget ++ bs.map Tree.forget := by
    rw [Tree.forget_children, hchildren, List.map_append]
  have hedit : ∀ s : Sheet, s = ⟨r.forget, w.next⟩ → s.find? b.id = some b.forget →
      s.edit (.add b.id content (some as.length)) =
        some ⟨r.forget.touch b.id (Tree.withChildren fun children => children.insertIdx as.length
          (content.tree (b.core.child w.next) true []).forget), w.next + 1⟩ := by
    rintro s rfl hfind
    rw [Sheet.edit, hfind]
    simp [hblock, hname, hforget]
  obtain ⟨document, p, r', w', hp, hshows, hopened, hfile, hrender, -⟩ :=
    exists_editFile_at h hb hblock hedit
  have hk : b.forget.children.insertIdx as.length
      (content.tree (b.core.child w.next) true []).forget = as.map Tree.forget ++
        (content.tree (b.core.child w.next) true []).forget :: bs.map Tree.forget := by
    have hlength : as.length = (as.map Tree.forget).length := by rw [List.length_map]
    rw [hforget, hlength, insertIdx_length_append]
  refine ⟨document, p, r', w', _, w.next, hp, hshows, hopened, hfile, hrender, ?_, hk⟩
  refine Tree.shape_forget_editAt (g := (·.insertIdx as.length content.shape)) hb hblock ?_
  rw [hk, hforget, ← List.length_map (f := Tree.forget), Forest.shapes_insert]

/-- A file without a node that can be deleted is read back as it is. -/
theorem exists_read_delete {r : Tree} {w : Workspace} {as bs : Forest}
    (h : editFile source policy [] = some (r, w)) (hb : r.at? path = some b)
    (hchildren : b.children = as ++ c :: bs) (hadmits : b.admitsDelete as.length = true)
    (file : Path) :
    ∃ r' w' document', editFile source policy [.delete b.id c.id] = some (r', w') ∧
      Fragment.read ⟨file, w'.forest.render [r']⟩ = .ok document' ∧
      document'.shape = r.shape.editAt (·.eraseIdx as.length) path := by
  obtain ⟨document, p, r', w', k, hp, hshows, hopened, hfile, hrender, hedited, hk⟩ :=
    exists_editFile_delete h hb hchildren
  have hforget : b.forget.children = as.map Tree.forget ++ c.forget :: bs.map Tree.forget := by
    rw [Tree.forget_children, hchildren, List.map_append, List.map_cons]
  rw [← Tree.admitsDelete_forget, ← List.length_map (f := Tree.forget)] at hadmits
  obtain ⟨document', hread, hshape⟩ := hshows.exists_read_editAt hp hopened hb
    (Tree.isBlock_of_children_ne hchildren)
    (fun hq => hq.exists_laidOut_delete hforget hk hadmits) file
  exact ⟨r', w', document', hfile, by rwa [hrender], hshape.trans hedited⟩

/-- A file with a node more that can be added is read back as it is. -/
theorem exists_read_insert {r : Tree} {w : Workspace} {as bs : Forest} {content : NodeContent}
    (h : editFile source policy [] = some (r, w)) (hb : r.at? path = some b)
    (hblock : b.isBlock = true) (hchildren : b.children = as ++ bs)
    (hplain : content.isPlain = true) (hadmits : b.admitsInsert as.length content = true)
    (file : Path) :
    ∃ r' w' document', editFile source policy [.add b.id content (some as.length)] = some (r', w') ∧
      Fragment.read ⟨file, w'.forest.render [r']⟩ = .ok document' ∧
      document'.shape = r.shape.editAt (·.insertIdx as.length content.shape) path := by
  obtain ⟨document, p, r', w', k, next, hp, hshows, hopened, hfile, hrender, hedited, hk⟩ :=
    exists_editFile_insert h hb hblock hchildren (NodeContent.name?_ne_of_isPlain hplain)
  have hforget : b.forget.children = as.map Tree.forget ++ bs.map Tree.forget := by
    rw [Tree.forget_children, hchildren, List.map_append]
  rw [← Tree.admitsInsert_forget, ← List.length_map (f := Tree.forget)] at hadmits
  obtain ⟨document', hread, hshape⟩ := hshows.exists_read_editAt hp hopened hb hblock
    (fun hq => hq.exists_laidOut_insert hforget hk hplain hadmits) file
  exact ⟨r', w', document', hfile, by rwa [hrender], hshape.trans hedited⟩

end HttpdConf
