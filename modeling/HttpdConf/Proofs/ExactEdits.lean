import HttpdConf.Proofs.Misreadings
import HttpdConf.Proofs.SingleEdits

/-!
# When an edit is read back

A file with a node less or more is read back as it is if the statements at the new seams end there.
Here is the converse. Suppose that the text is read, and that there are as many statements in it as
there should be, which say what they should say. The statements before the edit are found in their
places, and so are the blocks around it: the edited block is found with its new children. Of these,
the statement before a seam is found again, so it ends there.

For a new node there are two seams. The statement before it can only fail to end before the new line
by losing a backslash, whatever becomes of the new node: to make up for it, the statement would have
to take in the new node.

## Main definitions

* `Page.FoundIn`, `Tree.ReadsBack`: a block with other children is found in a text that was read

## Main results

* `Tree.ReadsBack.at?`: what is found in a document is found in the block that was edited
* `Tree.ReadsBack.admitsDelete`, `Tree.ReadsBack.admitsInsert`: the statements at the seams end
  there
* `exists_read_delete_iff`, `exists_read_insert_iff`: which nodes can be deleted and added
-/

namespace HttpdConf

open Layout Page.Fills

variable {source : SourceFile} {t b c : Tree} {path : List Nat} {k : Forest → Forest} {i : Nat}

/-! ## Readings of edited blocks -/

/-- What stands in a block is found in a reading of some text in which the block was rendered with
other children. -/
structure Page.FoundIn (source : SourceFile) (p : Page) (closing : List Chunk) (t : Tree)
    (children : Forest) (ls : List Layout) (trailing rest : List Chunk) (depth : Nat)
    (before : Ending) (after : List Char) : Prop where
  fills : p.Fills source closing t
  legible : LegibleAll t.core.origin.isDocument trailing rest ls
  closes : Closes t.core.origin.isDocument rest
  after_eq : t.core.origin.isDocument = true → after = []
  text_eq : textOf (ownAll ls ++ (trailing ++ rest)) =
    (Forest.renderAfter depth before children).toList ++
      (textOf p.trailing ++ (textOf closing ++ after))
  shapes_eq : shapes ls = Forest.shapes children

/-- Some text in which a block was rendered with other children is read, and these are found. -/
def Tree.ReadsBack (source : SourceFile) (t : Tree) (children : Forest) : Prop :=
  ∃ p closing ls trailing rest depth before after,
    Page.FoundIn source p closing t children ls trailing rest depth before after

theorem exists_split_of_shapes {ls : List Layout} {ss ss' : List Shape} {s : Shape}
    (h : shapes ls = ss ++ s :: ss') :
    ∃ as l bs, ls = as ++ l :: bs ∧ as.length = ss.length ∧ l.shape = s ∧
      bs.length = ss'.length := by
  rw [shapes_eq_map] at h
  obtain ⟨as, rest, rfl, has, hrest⟩ := List.map_eq_append_iff.1 h
  obtain ⟨l, bs, rfl, hl, hbs⟩ := List.map_eq_cons_iff.1 hrest
  exact ⟨as, l, bs, rfl, by simp [← has], hl, by simp [← hbs]⟩

/-- What is found in a block is found in the block inside that was edited. -/
theorem Tree.ReadsBack.inside {core : Core} {statement : Statement} {as bs : Forest} {inner : Core}
    {innerStatement : Statement} {children f : Forest} {core' : Core}
    (h : (Tree.block core statement (as ++ .block inner innerStatement children :: bs)).ReadsBack
      source (as ++ .block core' innerStatement f :: bs))
    (horigin : core'.origin = inner.origin) (hdirty : core'.dirty = true) :
    (Tree.block inner innerStatement children).ReadsBack source f := by
  obtain ⟨p, closing, ls, trailing, rest, depth, before, after, h⟩ := h
  obtain ⟨las, lc, lbs, hstatements, has, hlc, hbs⟩ := exists_of_forall₂_append_cons h.fills.opened
  obtain ⟨hbefore, -, hl, hown, -⟩ := h.fills.separated_at hstatements has before
  obtain ⟨gap, arguments, inside, trailing₁, name, blanks, rfl, hinside⟩ :=
    Page.Fills.exists_inside hlc hl hown
  have hfresh := hlc.isFreshOriginOf
  have hshapes := h.shapes_eq
  rw [Forest.shapes_eq_map, List.map_append, List.map_cons] at hshapes
  obtain ⟨las', l', bs', rfl, hlength, hshape, -⟩ := exists_split_of_shapes hshapes
  rw [Layout.gap] at hbefore
  -- the text up to the open tag of the block
  have hlaid := laidOut_of_isOpenedAs has depth before
  have htext := h.text_eq
  have hsep := fun e => hfresh.separator_eq depth e
  rw [Tree.core, Layout.gap, ← horigin] at hsep
  rw [hlaid.renderAfter_append hbefore.forall_written, Forest.renderAfter,
    hlc.renderAfter_block horigin hdirty, Tree.core, hsep] at htext
  simp only [String.toList_append, String.toList_ofList, List.append_assoc] at htext
  rw [← List.append_assoc (textOf _), ← textOf_append (ownAll (renewGaps before las))] at htext
  rw [own] at hown
  obtain ⟨htag, -, -⟩ := Written.append_iff.1 hown
  obtain ⟨gap₁, zs, hgap₁, hz, hzs, hlegible, hfound⟩ := hbefore.exists_aligned htag rfl h.legible
    (by rw [hlength, List.length_map, length_renewGaps, has.length_eq]) htext
  obtain ⟨zs, rfl, hinner⟩ := htag.exists_append hz hzs fun x hx => by
    obtain rfl : Chunk.tagEnd = x := by simpa [getLast?_openTagChunks] using hx
    trivial
  have hown' := hlegible.grammatical.own_append_eq hgap₁ hfound fun y hy => by
    obtain rfl : Chunk.openTag innerStatement.name = y := by simpa [openTagChunks] using hy
    rfl
  -- what is found there is a block with the same tag
  cases l' with
  | comment => simp [Layout.shape, Tree.shape] at hshape
  | directive => simp [Layout.shape, Tree.shape] at hshape
  | block gap' name' arguments' inside' trailing' closing' blanks' =>
    obtain ⟨rfl, -, hshapes⟩ := Shape.block.inj hshape
    obtain ⟨-, harguments', hinside', -⟩ := hlegible.grammatical.1
    simp only [own, openTagChunks, List.cons_append, List.append_assoc, List.nil_append] at hown'
    obtain ⟨rfl, hbody⟩ := append_inj_of_stops harguments' hl.2.1 (by simp [Chunk.isTagArgument,
      Token.tagArgument?]) (by simp [Chunk.isTagArgument, Token.tagArgument?])
      (List.cons.inj hown').2
    obtain ⟨-, rfl⟩ := List.cons.inj hbody
    have hdocument : inner.origin.isDocument = false := by
      have hshows : Shows source _ inner.origin.fragment := hfresh.shows
      exact hshows.isDocument_eq_false
    rw [textOf_append trailing₁, List.append_assoc] at hinner
    refine ⟨_, _, inside', trailing', _, depth + 1, .midLine, _, hinside, ?_, ?_, ?_, hinner,
      hshapes⟩ <;> rw [Tree.core, hdocument]
    · exact ⟨hinside', (Written.append_iff.1 hz).2.1⟩
    · exact .block
    · simp

/-- What is found in a document is found in every block that was edited. -/
theorem Tree.ReadsBack.at? (h : t.ReadsBack source (t.editAt k path).children)
    (hb : t.at? path = some b) (hblock : b.isBlock = true) : b.ReadsBack source (k b.children) := by
  induction path generalizing t with
  | nil =>
    obtain rfl := Option.some.inj hb
    obtain ⟨core, statement, children, rfl⟩ := Tree.exists_of_isBlock hblock
    exact h
  | cons i path ih =>
    obtain ⟨as, c, bs, hchildren, rfl, hc⟩ := Tree.at?_cons.1 hb
    obtain ⟨core, statement, rfl⟩ := Tree.eq_block_of_children_ne hchildren
    obtain ⟨inner, innerStatement, children, rfl⟩ :=
      Tree.exists_of_isBlock (Tree.isBlock_of_at? hc hblock)
    obtain ⟨core', f, hedit, horigin, hdirty⟩ :=
      Tree.exists_editAt_eq k path inner innerStatement children
    rw [Tree.editAt, modify_length_append, hedit] at h
    refine ih ?_ hc
    rw [hedit]
    exact Tree.ReadsBack.inside h horigin hdirty

theorem mem_nextGap_renewGaps (trailing : List Chunk) {ls : List Layout}
    (hne : renewGaps .midLine ls ≠ []) :
    '\n' ∈ textOf (nextGap trailing (renewGaps .midLine ls)) := by
  cases ls with
  | nil => exact absurd rfl hne
  | cons l ls =>
    rw [renewGaps, nextGap, withGap_gap, renewedGap]
    split
    · simp
    · rename_i hmem
      simpa using hmem

namespace Page.FoundIn

variable {p : Page} {closing trailing rest : List Chunk} {children : Forest}
  {ls as rs : List Layout} {l : Layout} {depth : Nat} {before : Ending} {after : List Char}

/-- The text goes on with any separated statements that are rendered at the end of the block. -/
theorem exists_continues
    (h : p.FoundIn source closing b children ls trailing rest depth before after)
    (hrs : SeparatedAll b.core.origin.isDocument p.trailing rs) :
    ∃ trailing₁ bs₁, Continues b.core.origin.isDocument trailing₁ bs₁
        (textOf (ownAll rs) ++ (textOf p.trailing ++ (textOf closing ++ after))) ∧
      nextGap trailing₁ bs₁ = nextGap p.trailing rs ∧ bs₁.length = rs.length := by
  have hclosing : Written closing := by
    have hw := h.fills.legible.written
    rw [← List.append_assoc] at hw
    exact (Written.append_iff.1 hw).2.1
  have hlast : b.core.origin.isDocument = true → closing = [] := by
    intro hdocument
    rcases h.fills.closing with ⟨hnil, -⟩ | ⟨-, hblock⟩
    · exact hnil
    · simp [hdocument] at hblock
  obtain ⟨bs₁, trailing₁, htext, hshapes, hlegible, hnext, -⟩ := hrs.exists_legible hclosing hlast
  refine ⟨trailing₁, bs₁, ⟨closing, after, hlegible, ?_, ?_⟩, hnext, ?_⟩
  · rcases h.fills.closing with ⟨hnil, hdocument⟩ | ⟨htag, hblock⟩
    · exact .inl ⟨hnil, hdocument, h.after_eq hdocument⟩
    · exact .inr ⟨htag, hblock⟩
  · rw [← List.append_assoc (ownAll bs₁), textOf_append _ closing, htext]
    simp
  · simpa [shapes_eq_map] using congrArg List.length hshapes

/-- A statement that was rendered after separated ones is found in its place. -/
theorem exists_found (h : p.FoundIn source closing b children ls trailing rest depth before after)
    (has : SeparatedAll false l.gap as) (hrs : ∀ m ∈ l :: rs, m.Grammatical ∧ Written m.own)
    (hlaid : LaidOut depth before children (as ++ l :: rs)) :
    ∃ l' bs' gap zs, gap.all Chunk.isGap = true ∧ Written zs ∧
      textOf zs = textOf l.own ++
        (textOf (ownAll rs) ++ (textOf p.trailing ++ (textOf closing ++ after))) ∧
      LegibleAll b.core.origin.isDocument trailing rest (l' :: bs') ∧
      ownAll (l' :: bs') ++ (trailing ++ rest) = gap ++ zs ∧ l'.shape = l.shape ∧
      bs'.length = rs.length := by
  have hshapes := h.shapes_eq
  rw [← hlaid.shapes_eq, shapes_eq_map (as ++ _), List.map_append, List.map_cons] at hshapes
  obtain ⟨as', l', bs', rfl, has', hshape, hbs'⟩ := exists_split_of_shapes hshapes
  rw [List.length_map] at has' hbs'
  have hrender := hlaid.renderAfter_eq fun m hm =>
    (List.mem_append.1 hm).elim (has.forall_written m) (hrs m)
  have hsplit : textOf (ownAll (as ++ l :: rs)) =
      textOf (ownAll as ++ l.gap) ++ (textOf l.own ++ textOf (ownAll rs)) := by
    simp
  have htext := h.text_eq
  rw [hrender, String.toList_ofList, hsplit, List.append_assoc, List.append_assoc] at htext
  obtain ⟨y, ys, hown, hy⟩ := l.exists_own_eq_cons
  obtain ⟨gap, zs, hgap, hz, hzs, hlegible, hfound⟩ :=
    has.exists_aligned (hown ▸ (hrs l (by simp)).2) hy h.legible has' htext
  exact ⟨l', bs', gap, zs, hgap, hz, hzs, hlegible, hfound, hshape, hbs'⟩

/-- A statement that is found where it was rendered ends before what stands after it. -/
theorem endsBefore (h : p.FoundIn source closing b children ls trailing rest depth before after)
    (has : SeparatedAll false l.gap as) (hl : l.Grammatical) (hw : Written l.own)
    (hrs : SeparatedAll b.core.origin.isDocument p.trailing rs)
    (hbreak : rs ≠ [] → '\n' ∈ textOf (nextGap p.trailing rs))
    (hlaid : LaidOut depth before children (as ++ l :: rs)) :
    l.EndsBefore (b.core.origin.isDocument && rs.isEmpty) (nextGap p.trailing rs) := by
  obtain ⟨l', bs', gap, zs, hgap, hz, hzs, hlegible, hfound, hshape, hbs'⟩ :=
    h.exists_found has (List.forall_mem_cons.2 ⟨⟨hl, hw⟩, hrs.forall_written⟩) hlaid
  obtain ⟨trailing₁, bs₁, hcontinues, hnext, hbs₁⟩ := h.exists_continues hrs
  have hnil : bs₁ = [] ↔ rs = [] := by
    rw [← List.length_eq_zero_iff, hbs₁, List.length_eq_zero_iff]
  rw [← hnext] at hbreak ⊢
  have hends := hcontinues.endsBefore (fun hne => hbreak (hnil.not.1 hne)) hl hw hz hzs hlegible
    h.closes hgap hfound hshape (hbs'.trans hbs₁.symm)
  have hempty : bs₁.isEmpty = rs.isEmpty := by
    rw [Bool.eq_iff_iff, List.isEmpty_iff, List.isEmpty_iff, hnil]
  rwa [hempty] at hends

end Page.FoundIn

/-- A block without one of its children is only found again if the child could be deleted. -/
theorem Tree.ReadsBack.admitsDelete {as bs : Forest} (h : b.ReadsBack source (as ++ bs))
    (hchildren : b.children = as ++ c :: bs) : b.admitsDelete as.length = true := by
  obtain ⟨p, closing, ls, trailing, rest, depth, before, after, h⟩ := h
  have hopened := h.fills.opened
  rw [hchildren] at hopened
  obtain ⟨las, lc, lbs, hstatements, has, -, hbs⟩ := exists_of_forall₂_append_cons hopened
  rw [h.fills.admitsDelete_iff hchildren hstatements has hbs]
  intro l hl
  obtain ⟨las, rfl⟩ := List.getLast?_eq_some_iff.1 hl
  rw [List.append_assoc, List.singleton_append] at hstatements
  have hstatements' : p.statements = (las ++ [l, lc]) ++ lbs := by simp [hstatements]
  have hseparated := h.fills.separatedAll.renew before
  rw [hstatements, renewGaps_append, renewGaps, separatedAll_append] at hseparated
  obtain ⟨hbefore, -, hgrammatical, hwritten, -⟩ := hseparated
  rw [List.isEmpty_cons, Bool.and_false, nextGap] at hbefore
  have hlaid : LaidOut depth before (as ++ bs) (renewGaps before (las ++ [l] ++ lbs)) :=
    laidOut_of_isOpenedAs (List.rel_append has hbs) depth before
  rw [List.append_assoc las, renewGaps_append, List.singleton_append, renewGaps] at hlaid
  have hends := h.endsBefore hbefore hgrammatical hwritten
    ((h.fills.separatedAll_around before hstatements').2 .midLine)
    (mem_nextGap_renewGaps _) hlaid
  simpa [EndsBefore] using hends

/-! ## One node more -/

namespace Layout

variable {l : Layout} {depth : Nat} {gap : List Chunk} {content : NodeContent}

/-- Only a backslash keeps a statement from ending before a new line. -/
theorem endsBefore_newLine (hw : Written l.own) (depth : Nat)
    (h : ∀ text, l.own.getLast? = some (.word text) → text.toList.getLast? ≠ some '\\') :
    l.EndsBefore false (newLine depth) := by
  intro x hx t ht
  have hline := endsLine_newLine depth
  have hlex := hw.isLexical x (List.mem_of_getLast? hx)
  cases t with
  | closeTag name => rfl
  | comment text => simp [Token.endsBefore, endsComment, newLine]
  | word text =>
    have hback := h text (hlex.eq_word ht ▸ hx)
    simp [Token.endsBefore, hline, hback]
  | _ => exact hline

/-- A plain directive does not end in a comment. -/
theorem getLast?_ofContent_ne (hdirective : (ofContent gap depth content).isDirective = true)
    (text : String) : (ofContent gap depth content).own.getLast? ≠ some (.comment text) := by
  cases content with
  | comment => simp [ofContent, isDirective] at hdirective
  | block => simp [ofContent, isDirective] at hdirective
  | directive name parameters =>
    intro hlast
    rw [ofContent, own, List.getLast?_cons, getLast?_parameterChunks] at hlast
    cases hparameter : parameters.getLast? with
    | none => simp [hparameter, Chunk.ext_iff] at hlast
    | some q =>
      have htoken := congrArg Chunk.token (Option.some.inj hlast)
      rcases Chunk.parameter_token (p := q) with h | h <;> simp [hparameter, h] at htoken

end Layout

/-- A statement is found again before a new one only if it ends before the new line. -/
theorem Page.FoundIn.endsBefore_newLine {p : Page} {closing trailing rest : List Chunk}
    {children : Forest} {ls as rs : List Layout} {l new : Layout} {depth depth' : Nat}
    {before : Ending} {after : List Char}
    (h : p.FoundIn source closing b children ls trailing rest depth before after)
    (has : SeparatedAll false l.gap as) (hl : l.Grammatical ∧ Written l.own)
    (hnew : new.Grammatical ∧ Written new.own) (hgap : new.gap = newLine depth')
    (hcomment : new.isDirective = true → ∀ text, new.own.getLast? ≠ some (.comment text))
    (hrs : SeparatedAll b.core.origin.isDocument p.trailing rs)
    (hbreak : rs ≠ [] → '\n' ∈ textOf (nextGap p.trailing rs))
    (hlaid : LaidOut depth before children (as ++ l :: new :: rs)) :
    l.EndsBefore false (newLine depth') := by
  refine Layout.endsBefore_newLine hl.2 depth' fun text hx hback => ?_
  obtain ⟨l', bs', gap, zs, hgap', hz, htext, hlegible, hfound, hshape, hlength⟩ :=
    h.exists_found has (List.forall_mem_cons.2
      ⟨hl, List.forall_mem_cons.2 ⟨hnew, hrs.forall_written⟩⟩) hlaid
  -- the statement loses its backslash, and a single backslash is read after it
  rw [ownAll_cons, hgap, newLine, List.cons_append, textOf_cons, Chunk.newline_text,
    List.append_assoc] at htext
  obtain ⟨stem₀, stem, zs₁, hown, rfl, hz₁, hzs₁⟩ := exists_lost hl.2 hx hback (.inl rfl) hz htext
  have hback' := afterBackslash_of_lost hown hlegible hgap' hfound hshape
  -- it can only be read from the new statement, and then there is one statement less
  obtain ⟨trailing₁, bs₁, hcontinues, hnext, hbs₁⟩ := h.exists_continues hrs
  have hnil : bs₁ = [] ↔ rs = [] := by
    rw [← List.length_eq_zero_iff, hbs₁, List.length_eq_zero_iff]
  rw [← hnext] at hbreak
  have hindent : Written (List.replicate (4 * depth') (Chunk.blank ' ')) := by
    have hline : Written (newLine depth') := by
      simpa using (loose_newLine depth').written_append .nil
    exact hline.tail
  rw [textOf_append, List.append_assoc] at hzs₁
  obtain ⟨zs₂, rfl, hzs₂⟩ := hindent.exists_append hz₁ hzs₁ fun x hx => by
    obtain rfl := List.eq_of_mem_replicate (List.mem_of_getLast? hx)
    trivial
  rw [textOf_append, List.append_assoc] at hzs₂
  have hle := hcontinues.length_le (fun hne => hbreak (hnil.not.1 hne)) hnew.1 hnew.2 hcomment
    (Written.append_iff.1 hz₁).2.1 hzs₂ ?_ hback' h.closes
  · rw [List.length_cons] at hlength
    omega
  · simp [List.all_replicate, Chunk.isGap]

/-- A block with a child more is only found again if the child could be added. -/
theorem Tree.ReadsBack.admitsInsert {as bs : Forest} {content : NodeContent} {core : Core}
    {next : NodeId}
    (h : b.ReadsBack source (as ++ (content.tree (core.child next) true []).forget :: bs))
    (hchildren : b.children = as ++ bs) (hplain : content.isPlain = true) :
    b.admitsInsert as.length content = true := by
  obtain ⟨p, closing, ls, trailing, rest, depth, before, after, h⟩ := h
  have hopened := h.fills.opened
  rw [hchildren] at hopened
  have has := List.forall₂_take_append _ _ _ hopened
  have hbs := List.forall₂_drop_append _ _ _ hopened
  have hstatements := (List.take_append_drop as.length p.statements).symm
  generalize p.statements.take as.length = las at has hstatements
  generalize p.statements.drop as.length = lbs at hbs hstatements
  have hlaid := Page.Fills.laidOut_insert has hbs hplain core next depth before
  have hlbs := (h.fills.separatedAll_around before hstatements).2 .midLine
  have hgap := gap_newGap depth (if as.isEmpty then before else .midLine)
  -- the statement before the new one ends first, so that what comes before it is separated
  have hends : ∀ l ∈ las.getLast?, l.EndsBefore false (newLine depth) := by
    intro l hl
    obtain ⟨las, rfl⟩ := List.getLast?_eq_some_iff.1 hl
    have hne : as.isEmpty = false := by
      cases as with
      | nil => simpa using has.length_eq
      | cons => rfl
    have hline : newGap depth (if as.isEmpty then before else .midLine) = newLine depth := by
      rw [hne]
      rfl
    rw [List.append_assoc, List.singleton_append] at hstatements
    have hseparated := h.fills.separatedAll.renew before
    rw [hstatements, renewGaps_append, renewGaps, separatedAll_append] at hseparated
    obtain ⟨hbefore, -, hgrammatical, hwritten, -⟩ := hseparated
    rw [List.isEmpty_cons, Bool.and_false, nextGap] at hbefore
    rw [renewGaps_append, List.append_assoc] at hlaid
    have hfound := h.endsBefore_newLine hbefore ⟨hgrammatical, hwritten⟩
      ⟨grammatical_ofContent hgap.all_isGap, written_ofContent hplain⟩
      (ofContent_gap.trans hline) getLast?_ofContent_ne hlbs (mem_nextGap_renewGaps _) hlaid
    simpa [EndsBefore] using hfound
  rw [h.fills.admitsInsert_iff hchildren hstatements has hbs hplain
    (newGap depth (if as.isEmpty then before else .midLine)) depth]
  refine ⟨hends, h.endsBefore ?_ (grammatical_ofContent hgap.all_isGap)
    (written_ofContent hplain) hlbs (mem_nextGap_renewGaps _) hlaid⟩
  rw [ofContent_gap]
  exact h.fills.separatedAll_newGap hstatements has hends before

/-! ## Whole documents -/

variable {policy : Policy} {document document' : Fragment} {p : Page} {file : Path} {r : Tree}
  {w : Workspace}

/-- Where a document with an edit of one block is read back as it is, the block is found there. -/
theorem Page.Shows.readsBack (h : p.Shows source document) (hp : p.Legible)
    (hopened : r.forget = (Sheet.opened document policy).tree) (hb : r.at? path = some b)
    (hblock : b.isBlock = true)
    (hread : Fragment.read ⟨file, (r.forget.editAt k path).renderAfter 0 .nothing⟩ = .ok document')
    (hshape : document'.shape = (r.forget.editAt k path).shape) :
    b.forget.ReadsBack source (k b.forget.children) := by
  have hb' : r.forget.at? path = some b.forget := by rw [Tree.at?_forget, hb, Option.map_some]
  rw [hopened] at hb' hread hshape
  have hdocument : (Core.opened document policy).origin.isDocument = true :=
    Origin.isDocument_parsed h.kind_eq
  have hfills := h.fills_opened hp policy
  obtain ⟨p', hp', htext, hshows'⟩ := Fragment.exists_page_of_read hread
  obtain ⟨core', children', hroot, horigin, -⟩ := Tree.exists_editAt_eq k path
    (Core.opened document policy) ⟨"", [], none⟩
    (Forest.ofFragments ⟨policy, 0⟩ 0 1 document.children).1
  refine Tree.ReadsBack.at? ?_ hb' (by rwa [Tree.forget_isBlock])
  simp only [Sheet.opened] at hfills hshape htext ⊢
  rw [hroot, h.toList_renderAfter horigin] at htext
  rw [hroot, hshows'.shape, Tree.shape] at hshape
  obtain ⟨-, -, hshapes⟩ := Shape.block.inj hshape
  rw [hroot, Tree.children]
  refine ⟨p, [], p'.statements, p'.trailing, [], 0, .nothing, [], hfills, ?_, ?_, fun _ => rfl,
    ?_, hshapes⟩
  · rw [Tree.core, hdocument]
    exact ⟨hp'.grammatical, by simpa [Page.chunks] using hp'.written⟩
  · rw [Tree.core, hdocument]
    exact .file
  · simpa [Page.chunks] using htext

/-- A file without one of its nodes is read back as it is exactly if the node before it ends before
the one after it. -/
theorem exists_read_delete_iff (h : editFile source policy [] = some (r, w))
    (hb : r.at? path = some b) (hc : b.children[i]? = some c) (file : Path) :
    (∃ r' w' document', editFile source policy [.delete b.id c.id] = some (r', w') ∧
      Fragment.read ⟨file, w'.forest.render [r']⟩ = .ok document' ∧
      document'.shape = r.shape.editAt (·.eraseIdx i) path) ↔ b.admitsDelete i = true := by
  obtain ⟨as, bs, hchildren, rfl⟩ := exists_split_of_getElem? hc
  refine ⟨?_, fun hadmits => exists_read_delete h hb hchildren hadmits file⟩
  rintro ⟨r', w', document', hfile, hread, hshape⟩
  -- there is one outcome of an edit, so what is read back is what this lemma tells about
  obtain ⟨document, p, r'', w'', k, hp, hshows, hopened, hfile', hrender, hedited, hk⟩ :=
    exists_editFile_delete h hb hchildren
  obtain ⟨rfl, rfl⟩ := Prod.mk.inj (Option.some.inj (hfile.symm.trans hfile'))
  rw [hrender] at hread
  have hfound := hshows.readsBack hp hopened hb (Tree.isBlock_of_children_ne hchildren) hread
    (hshape.trans hedited.symm)
  have hforget : b.forget.children = as.map Tree.forget ++ c.forget :: bs.map Tree.forget := by
    rw [Tree.forget_children, hchildren, List.map_append, List.map_cons]
  rw [hk] at hfound
  rw [← Tree.admitsDelete_forget, ← List.length_map (f := Tree.forget)]
  exact hfound.admitsDelete hforget

/-- A joined line between two statements can go, with the comment that it belongs to. -/
theorem exists_read_delete_joined :
    ∃ r w b c r' w' document',
      editFile ⟨⟨"site.conf"⟩, "<A x>Foo 1 \\\n \n # c\\\n<B></B>\n</A>"⟩ Policy.default [] =
        some (r, w) ∧
      r.at? [0] = some b ∧ b.children[1]? = some c ∧
      editFile ⟨⟨"site.conf"⟩, "<A x>Foo 1 \\\n \n # c\\\n<B></B>\n</A>"⟩ Policy.default
        [.delete b.id c.id] = some (r', w') ∧
      Fragment.read ⟨⟨"site.conf"⟩, w'.forest.render [r']⟩ = .ok document' ∧
      document'.shape = r.shape.editAt (·.eraseIdx 1) [0] := by
  have hrun : ((editFile ⟨⟨"site.conf"⟩, "<A x>Foo 1 \\\n \n # c\\\n<B></B>\n</A>"⟩
      Policy.default []).any fun opened => (opened.1.at? [0]).any fun b =>
        b.children[1]?.isSome && b.admitsDelete 1) = true := by
    decide +kernel
  obtain ⟨⟨r, w⟩, h, hr⟩ := (Option.any_eq_true ..).1 hrun
  obtain ⟨b, hb, hchild⟩ := (Option.any_eq_true ..).1 hr
  rw [Bool.and_eq_true, Option.isSome_iff_exists] at hchild
  obtain ⟨⟨c, hc⟩, hadmits⟩ := hchild
  obtain ⟨r', w', document', hfile, hread⟩ :=
    (exists_read_delete_iff h hb hc ⟨"site.conf"⟩).2 hadmits
  exact ⟨r, w, b, c, r', w', document', h, hb, hc, hfile, hread⟩

/-- A block that ends on the line of its last child cannot do without that child: nothing puts the
line break back. -/
theorem exists_not_read_delete :
    ∃ r w b c r' w',
      editFile ⟨⟨"site.conf"⟩, "<A>\nFoo 1\n<B></B></A>\n"⟩ Policy.default [] = some (r, w) ∧
      r.at? [0] = some b ∧ b.children[1]? = some c ∧
      editFile ⟨⟨"site.conf"⟩, "<A>\nFoo 1\n<B></B></A>\n"⟩ Policy.default [.delete b.id c.id] =
        some (r', w') ∧
      ∀ document, Fragment.read ⟨⟨"site.conf"⟩, w'.forest.render [r']⟩ ≠ .ok document := by
  have hrun : ((editFile ⟨⟨"site.conf"⟩, "<A>\nFoo 1\n<B></B></A>\n"⟩ Policy.default []).any
      fun opened => (opened.1.at? [0]).any fun b => b.children[1]?.any fun c =>
        (editFile ⟨⟨"site.conf"⟩, "<A>\nFoo 1\n<B></B></A>\n"⟩ Policy.default
          [.delete b.id c.id]).any fun edited => (Fragment.read
            ⟨⟨"site.conf"⟩, edited.2.forest.render [edited.1]⟩).toOption.isNone) = true := by
    decide +kernel
  obtain ⟨⟨r, w⟩, h, hr⟩ := (Option.any_eq_true ..).1 hrun
  obtain ⟨b, hb, hchild⟩ := (Option.any_eq_true ..).1 hr
  obtain ⟨c, hc, hdelete⟩ := (Option.any_eq_true ..).1 hchild
  obtain ⟨⟨r', w'⟩, hfile, hread⟩ := (Option.any_eq_true ..).1 hdelete
  refine ⟨r, w, b, c, r', w', h, hb, hc, hfile, fun document hdocument => ?_⟩
  simp [hdocument, Except.toOption] at hread

/-- A file with a node more is read back as it is exactly if the node before it ends before a new
line and the new one ends before the one after it. -/
theorem exists_read_insert_iff (h : editFile source policy [] = some (r, w))
    (hb : r.at? path = some b) (hblock : b.isBlock = true) (hi : i ≤ b.children.length)
    {content : NodeContent} (hplain : content.isPlain = true) (file : Path) :
    (∃ r' w' document', editFile source policy [.add b.id content (some i)] = some (r', w') ∧
      Fragment.read ⟨file, w'.forest.render [r']⟩ = .ok document' ∧
      document'.shape = r.shape.editAt (·.insertIdx i content.shape) path) ↔
      b.admitsInsert i content = true := by
  obtain ⟨as, bs, hchildren, rfl⟩ : ∃ as bs, b.children = as ++ bs ∧ as.length = i :=
    ⟨_, _, (List.take_append_drop i _).symm, by rw [List.length_take, Nat.min_eq_left hi]⟩
  refine ⟨?_, fun hadmits => exists_read_insert h hb hblock hchildren hplain hadmits file⟩
  rintro ⟨r', w', document', hfile, hread, hshape⟩
  -- as for a deleted node, the edit has one outcome
  obtain ⟨document, p, r'', w'', k, next, hp, hshows, hopened, hfile', hrender, hedited, hk⟩ :=
    exists_editFile_insert h hb hblock hchildren (NodeContent.name?_ne_of_isPlain hplain)
  obtain ⟨rfl, rfl⟩ := Prod.mk.inj (Option.some.inj (hfile.symm.trans hfile'))
  rw [hrender] at hread
  have hfound := hshows.readsBack hp hopened hb hblock hread (hshape.trans hedited.symm)
  have hforget : b.forget.children = as.map Tree.forget ++ bs.map Tree.forget := by
    rw [Tree.forget_children, hchildren, List.map_append]
  rw [hk] at hfound
  rw [← Tree.admitsInsert_forget, ← List.length_map (f := Tree.forget)]
  exact hfound.admitsInsert hforget hplain

/-- A directive between a comment and a tag that starts on a joined line. -/
theorem exists_read_insert_joined :
    ∃ r w b r' w' document',
      editFile ⟨⟨"site.conf"⟩, "<A x> # c\\\n \\\n \n<B></B></A>"⟩ Policy.default [] =
        some (r, w) ∧
      r.at? [0] = some b ∧
      editFile ⟨⟨"site.conf"⟩, "<A x> # c\\\n \\\n \n<B></B></A>"⟩ Policy.default
        [.add b.id (.directive "N" ["\"a b\"", "c"]) (some 1)] = some (r', w') ∧
      Fragment.read ⟨⟨"site.conf"⟩, w'.forest.render [r']⟩ = .ok document' ∧
      document'.shape =
        r.shape.editAt (·.insertIdx 1 (.directive "N" ["\"a b\"", "c"])) [0] := by
  have hrun : ((editFile ⟨⟨"site.conf"⟩, "<A x> # c\\\n \\\n \n<B></B></A>"⟩
      Policy.default []).any fun opened => (opened.1.at? [0]).any fun b =>
        b.isBlock && decide (1 ≤ b.children.length) &&
          b.admitsInsert 1 (.directive "N" ["\"a b\"", "c"])) = true := by
    decide +kernel
  obtain ⟨⟨r, w⟩, h, hr⟩ := (Option.any_eq_true ..).1 hrun
  obtain ⟨b, hb, hplace⟩ := (Option.any_eq_true ..).1 hr
  rw [Bool.and_eq_true, Bool.and_eq_true, decide_eq_true_eq] at hplace
  obtain ⟨⟨hblock, hi⟩, hadmits⟩ := hplace
  obtain ⟨r', w', document', hfile, hread⟩ :=
    (exists_read_insert_iff h hb hblock hi (by decide) ⟨"site.conf"⟩).2 hadmits
  exact ⟨r, w, b, r', w', document', h, hb, hfile, hread⟩

/-- A directive cannot be added to a block that is closed on the line it was opened on: nothing puts
a line break before the close tag. -/
theorem exists_not_read_insert :
    ∃ r w b r' w',
      editFile ⟨⟨"site.conf"⟩, "<A></A>\n"⟩ Policy.default [] = some (r, w) ∧
      r.at? [0] = some b ∧
      editFile ⟨⟨"site.conf"⟩, "<A></A>\n"⟩ Policy.default
        [.add b.id (.directive "N" ["1"]) (some 0)] = some (r', w') ∧
      ∀ document, Fragment.read ⟨⟨"site.conf"⟩, w'.forest.render [r']⟩ ≠ .ok document := by
  have hrun : ((editFile ⟨⟨"site.conf"⟩, "<A></A>\n"⟩ Policy.default []).any
      fun opened => (opened.1.at? [0]).any fun b =>
        (editFile ⟨⟨"site.conf"⟩, "<A></A>\n"⟩ Policy.default
          [.add b.id (.directive "N" ["1"]) (some 0)]).any fun edited => (Fragment.read
            ⟨⟨"site.conf"⟩, edited.2.forest.render [edited.1]⟩).toOption.isNone) = true := by
    decide +kernel
  obtain ⟨⟨r, w⟩, h, hr⟩ := (Option.any_eq_true ..).1 hrun
  obtain ⟨b, hb, hinsert⟩ := (Option.any_eq_true ..).1 hr
  obtain ⟨⟨r', w'⟩, hfile, hread⟩ := (Option.any_eq_true ..).1 hinsert
  refine ⟨r, w, b, r', w', h, hb, hfile, fun document hdocument => ?_⟩
  simp [hdocument, Except.toOption] at hread

end HttpdConf
