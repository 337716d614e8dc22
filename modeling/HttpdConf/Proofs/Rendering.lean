import HttpdConf.Proofs.Editing
import HttpdConf.Proofs.Lines
import HttpdConf.Proofs.Tiling

/-!
# Rendered text as layouts

What a tree is rendered to is put together from the layouts of the file it came from and from
lines that are written anew. This module says it for one node at a time: which chunks stand for a
directive, for an open tag and for the gap before a node, and what is read back from them.

## Main definitions

* `Core.opening`, `Core.closing`: the text around the children of a block that is not copied
* `Layout.withGap`: a layout after another gap
* `renewedGap`, `renewedArguments`: the chunks that rendering puts in the place of a gap, or of
  arguments
* `Statement.IsPlain`: parameters that are kept or plain

## Main results

* `Page.Legible.exists_read`: a legible page can be read and says what its statements say
* `Page.Shows.exists_read_render`: a document that is rendered to a legible page is read back
* `separator_eq`, `Layout.Shows.directive_eq`, `Layout.Shows.block_eq`: rendered parts as chunks
-/

namespace HttpdConf

/-! ## Shapes of layouts -/

theorem Fragment.shape_eq (f : Fragment) :
    f.shape = match f.kind with
      | .document => .block "" [] (Fragment.shapes f.children)
      | .comment text => .comment text
      | .directive name arguments => .directive name arguments
      | .block name arguments => .block name arguments (Fragment.shapes f.children) := by
  obtain ⟨source, kind, span, leading, header, trailing, footer, children⟩ := f
  cases kind <;> rw [Fragment.shape]

mutual
/-- A fragment says what its layout says. -/
theorem Layout.Shows.shape {source : SourceFile} (l : Layout) {f : Fragment}
    (h : l.Shows source f) : f.shape = l.shape := by
  match l with
  | .comment gap text =>
    rw [Layout.Shows] at h
    rw [Fragment.shape_eq, h.1, Layout.shape]
  | .directive gap name arguments =>
    rw [Layout.Shows] at h
    rw [Fragment.shape_eq, h.1, Layout.shape]
  | .block gap name arguments inside trailing closing blanks =>
    rw [Layout.Shows] at h
    rw [Fragment.shape_eq, h.1, Layout.shape]
    simp only [Layout.ShowsAll.shapes inside h.2.1]

theorem Layout.ShowsAll.shapes {source : SourceFile} (ls : List Layout) {fs : List Fragment}
    (h : Layout.ShowsAll source ls fs) : Fragment.shapes fs = Layout.shapes ls := by
  match ls with
  | [] =>
    rw [Layout.ShowsAll] at h
    rw [h, Fragment.shapes, Layout.shapes]
  | l :: ls =>
    rw [Layout.ShowsAll] at h
    obtain ⟨f, rest, rfl, hf, hrest⟩ := h
    rw [Fragment.shapes, Layout.shapes, Layout.Shows.shape l hf, Layout.ShowsAll.shapes ls hrest]
end

theorem Page.Shows.shape {source : SourceFile} {p : Page} {document : Fragment}
    (h : p.Shows source document) :
    document.shape = .block "" [] (Layout.shapes p.statements) := by
  rw [Fragment.shape_eq, h.kind_eq, ← h.children.shapes]

/-- The text of a legible page can be read, and says what its statements say. -/
theorem Page.Legible.exists_read {p : Page} (hp : p.Legible) (source : SourceFile)
    (htext : source.text.toList = textOf p.chunks) :
    ∃ document, Fragment.read source = .ok document ∧
      document.shape = .block "" [] (Layout.shapes p.statements) := by
  have hread : Fragment.read source = .ok (p.place source) :=
    Fragment.read_eq_ok_iff.2 ⟨p, hp, htext.symm, rfl⟩
  refine ⟨p.place source, hread, ?_⟩
  -- the statements stand at the start of the file, so their fragments show them
  have hstatements : Span.Covers source ⟨0, 0 + extent (Layout.ownAll p.statements)⟩
      (Layout.ownAll p.statements) :=
    ⟨[], textOf p.trailing, by simpa [Page.chunks] using htext, by simp⟩
  have hshows := Layout.showsAll_placeAll p.statements hstatements
  rw [Fragment.shape_eq, ← hshows.shapes]
  rfl

/-! ## Trees without memories -/

mutual
theorem Tree.shape_forget (t : Tree) : t.forget.shape = t.shape := by
  match t with
  | .comment core text => simp [Tree.forget, Tree.mapStatements, Tree.shape]
  | .directive core statement => simp [Tree.forget, Tree.mapStatements, Tree.shape]
  | .block core statement children =>
    rw [Tree.forget_block, Tree.shape, Tree.shape, Forest.shapes_forget children]

theorem Forest.shapes_forget (f : Forest) :
    Forest.shapes (f.map Tree.forget) = Forest.shapes f := by
  match f with
  | [] => rfl
  | t :: f =>
    rw [List.map_cons, Forest.shapes, Forest.shapes, Tree.shape_forget t, Forest.shapes_forget f]
end

mutual
theorem Tree.renderAfter_forget {depth : Nat} {before : Ending} (t : Tree) :
    t.forget.renderAfter depth before = t.renderAfter depth before := by
  match t with
  | .comment core text => simp [Tree.forget, Tree.mapStatements]
  | .directive core statement =>
    simp [Tree.forget, Tree.mapStatements, Tree.renderAfter, Statement.line]
  | .block core statement children =>
    rw [Tree.forget_block, Tree.renderAfter, Tree.renderAfter]
    simp only [Forest.renderAfter_forget children, Statement.line]

theorem Forest.renderAfter_forget {depth : Nat} {before : Ending} (f : Forest) :
    Forest.renderAfter depth before (f.map Tree.forget) = Forest.renderAfter depth before f := by
  match f with
  | [] => rfl
  | t :: f =>
    rw [List.map_cons, Forest.renderAfter, Forest.renderAfter]
    simp only [Tree.forget_core, Tree.renderAfter_forget t, Forest.renderAfter_forget f]
end

theorem Origin.isDocument_parsed {document : Fragment} (h : document.kind = .document) :
    (Origin.parsed document).isDocument = true := by
  simp [Origin.isDocument, Origin.parsed, h]

/-- The text of a whole document does not depend on what else is open. -/
theorem Forest.render_document (f : Forest) {t : Tree} (ht : t.core.origin.isDocument = true)
    (hblock : t.isBlock = true) : f.render [t] = t.renderAfter 0 .nothing := by
  obtain ⟨core, statement, children, rfl⟩ := Tree.exists_of_isBlock hblock
  have hcore : core.origin.isDocument = true := ht
  simp [Forest.render, Forest.renderAll, Tree.renderAfter, hcore, Ending.after]

/-- The text of a whole document does not depend on what its nodes remember. -/
theorem Forest.render_of_forget (f : Forest) {t : Tree} {core : Core} {statement : Statement}
    {children : Forest} {document : Fragment} (ht : t.forget = .block core statement children)
    (horigin : core.origin = .parsed document) (hkind : document.kind = .document) :
    f.render [t] = t.forget.renderAfter 0 .nothing := by
  rw [Tree.renderAfter_forget]
  refine Forest.render_document f ?_ (by rw [← Tree.forget_isBlock, ht]; rfl)
  rw [← Tree.forget_core, ht, Tree.core, horigin, Origin.isDocument_parsed hkind]

/-! ## Copied and rebuilt blocks -/

/-- How deep the children of a block stand. -/
def Core.inner (core : Core) (depth : Nat) : Nat := if core.origin.isDocument then 0 else depth + 1

/-- What a rebuilt block starts with. -/
def Core.opening (core : Core) (statement : Statement) : String :=
  if core.origin.isDocument then ""
  else if core.keeps statement.parameters then
    core.origin.fragment.slice core.origin.fragment.header
  else "<" ++ statement.line ++ ">"

/-- What a rebuilt block ends with. -/
def Core.closing (core : Core) (depth : Nat) (statement : Statement) : String :=
  if core.origin.isDocument then core.origin.fragment.slice core.origin.fragment.trailing
  else if core.origin.synthetic then "\n" ++ indent depth ++ "</" ++ statement.name ++ ">"
  else core.origin.fragment.slice core.origin.fragment.trailing ++
    core.origin.fragment.slice core.origin.fragment.footer

section

variable {depth : Nat} {core : Core} {statement : Statement} {children : Forest}

/-- A block that is not rebuilt is copied. -/
theorem Tree.renderAfter_of_copied (h : core.isRebuilt = false) (before : Ending) :
    (Tree.block core statement children).renderAfter depth before = core.origin.fragment.text := by
  have hdocument : core.origin.isDocument = false := by simp_all [Core.isRebuilt]
  simp [Tree.renderAfter, hdocument, h]

/-- A block that is rebuilt is rendered from its children. -/
theorem Tree.renderAfter_of_rebuilt (h : core.isRebuilt = true) (before : Ending) :
    (Tree.block core statement children).renderAfter depth before =
      core.opening statement ++
        Forest.renderAfter (core.inner depth) (before.after (core.opening statement)) children ++
        core.closing depth statement := by
  rw [Tree.renderAfter, Core.opening, Core.inner, Core.closing]
  cases core.origin.isDocument with
  | true => simp [Ending.after]
  | false =>
    simp only [h, Bool.not_true, Bool.false_eq_true, if_false]

/-- A block with this core starts with a text of its own when it is rebuilt: it is no document, and
has a header if it was read. -/
structure Core.IsHeaded (core : Core) : Prop where
  isDocument_eq : core.origin.isDocument = false
  header_ne : core.origin.synthetic = false →
    (core.origin.fragment.slice core.origin.fragment.header).toList ≠ []

theorem Core.IsHeaded.opening_ne (h : core.IsHeaded) (statement : Statement) :
    (core.opening statement).toList ≠ [] := by
  rw [Core.opening, h.isDocument_eq, if_neg (by simp)]
  split
  · rename_i hkeeps
    exact h.header_ne (by simp_all [Core.keeps])
  · simp

/-- What a headed block is rendered to does not depend on the text before it. -/
theorem Core.IsHeaded.renderAfter_block (h : core.IsHeaded) (before before' : Ending) :
    (Tree.block core statement children).renderAfter depth before =
      (Tree.block core statement children).renderAfter depth before' := by
  cases hrebuilt : core.isRebuilt with
  | true =>
    rw [Tree.renderAfter_of_rebuilt hrebuilt, Tree.renderAfter_of_rebuilt hrebuilt,
      Ending.after_eq (h.opening_ne statement) before before']
  | false => rw [Tree.renderAfter_of_copied hrebuilt, Tree.renderAfter_of_copied hrebuilt]

end

/-- A document is rendered to its statements and the gap after them. -/
theorem Page.Shows.toList_renderAfter {source : SourceFile} {document : Fragment} {p : Page}
    (hshows : p.Shows source document) {core : Core} (horigin : core.origin = .parsed document)
    (standing : Option Bool) (children : Forest) :
    ((Tree.block core ⟨"", [], standing⟩ children).renderAfter 0 .nothing).toList =
      (Forest.renderAfter 0 .nothing children).toList ++ textOf p.trailing := by
  rw [Tree.renderAfter, horigin, if_pos (Origin.isDocument_parsed hshows.kind_eq),
    String.toList_append]
  simp only [Origin.parsed]
  rw [hshows.parts.slice_eq, hshows.parts.trailing.slice_eq, String.toList_ofList]

/-- A document whose statements and last gap are rendered to a legible page is read back as that
page. -/
theorem Page.Shows.exists_read_render {source : SourceFile} {document : Fragment} {p : Page}
    (hshows : p.Shows source document) {core : Core} {standing : Option Bool} {children : Forest}
    (horigin : core.origin = .parsed document) {ls : List Layout} {gap : List Chunk}
    (hlegible : Page.Legible ⟨ls, gap⟩)
    (htext : (Forest.renderAfter 0 .nothing children).toList ++ textOf p.trailing =
      textOf (Page.chunks ⟨ls, gap⟩))
    (hshapes : Layout.shapes ls = Forest.shapes children) (path : Path) :
    ∃ document', Fragment.read
        ⟨path, (Tree.block core ⟨"", [], standing⟩ children).renderAfter 0 .nothing⟩ =
          .ok document' ∧
      document'.shape = (Tree.block core ⟨"", [], standing⟩ children).shape := by
  obtain ⟨document', hread, hshape⟩ := hlegible.exists_read
    ⟨path, (Tree.block core ⟨"", [], standing⟩ children).renderAfter 0 .nothing⟩
    ((hshows.toList_renderAfter horigin standing children).trans htext)
  exact ⟨document', hread, by rw [hshape, Tree.shape, hshapes]⟩

/-! ## Gaps -/

/-- The layout after another gap. -/
def Layout.withGap (gap : List Chunk) : Layout → Layout
  | .comment _ text => .comment gap text
  | .directive _ name arguments => .directive gap name arguments
  | .block _ name arguments inside trailing closing blanks =>
    .block gap name arguments inside trailing closing blanks

namespace Layout

variable {l : Layout} {gap : List Chunk}

@[simp]
theorem withGap_gap : (l.withGap gap).gap = gap := by
  cases l <;> rfl

@[simp]
theorem withGap_own : (l.withGap gap).own = l.own := by
  cases l <;> simp [withGap, own]

@[simp]
theorem withGap_shape : (l.withGap gap).shape = l.shape := by
  cases l <;> simp [withGap, shape]

@[simp]
theorem withGap_isDirective : (l.withGap gap).isDirective = l.isDirective := by
  cases l <;> rfl

theorem Grammatical.withGap (h : l.Grammatical) (hgap : gap.all Chunk.isGap = true) :
    (l.withGap gap).Grammatical := by
  cases l
  · exact hgap
  · exact ⟨hgap, h.2⟩
  · exact ⟨hgap, h.2⟩

theorem Grammatical.all_isGap (h : l.Grammatical) : l.gap.all Chunk.isGap = true := by
  cases l
  · exact h
  · exact h.1
  · exact h.1

end Layout

/-- A line break among the chunks of a text is one in the text. -/
theorem mem_textOf_of_breaksLine {ks : List Chunk} (h : breaksLine ks = true)
    (hlex : ∀ k ∈ ks, k.IsLexical) : '\n' ∈ textOf ks := by
  simp only [breaksLine, List.any_eq_true, beq_iff_eq] at h
  obtain ⟨k, hk, htoken⟩ := h
  refine List.mem_flatMap.2 ⟨k, hk, ?_⟩
  cases hlex k hk with
  | newline hbr => rcases hbr with rfl | rfl <;> simp
  | _ => simp at htoken

namespace Layout

variable {l : Layout}

/-- A statement starts with a token. -/
theorem exists_own_eq_cons (l : Layout) : ∃ k ks, l.own = k :: ks ∧ k.isGap = false := by
  cases l with
  | comment gap text => exact ⟨_, _, by rw [own], rfl⟩
  | directive gap name arguments => exact ⟨_, _, by rw [own], rfl⟩
  | block gap name arguments inside trailing closing blanks =>
    exact ⟨.openTag name, _, by rw [own, openTagChunks, List.cons_append], rfl⟩

/-- A statement ends with a token. -/
theorem Grammatical.isGap_getLast? (h : l.Grammatical) :
    ∀ x ∈ l.own.getLast?, x.isGap = false := by
  intro x hx
  cases l with
  | comment gap text =>
    obtain rfl : Chunk.comment text = x := by simpa [own] using hx
    rfl
  | directive gap name arguments =>
    obtain ⟨-, harguments, hlast⟩ := h
    rw [own, List.getLast?_cons] at hx
    -- a directive ends with its last argument, or with its name if it has none
    cases hargs : arguments.getLast? with
    | none =>
      obtain rfl : Chunk.word name = x := by simpa [hargs] using hx
      rfl
    | some y =>
      obtain rfl : y = x := by simpa [hargs] using hx
      have hy := List.all_eq_true.1 harguments y (List.mem_of_getLast? hargs)
      obtain ⟨t, ht⟩ := Option.isSome_iff_exists.1 (hlast y hargs)
      cases t <;> simp_all [Chunk.isGap, Chunk.isArgument, Token.argumentWords?]
  | block gap name arguments inside trailing closing blanks =>
    obtain rfl : Chunk.closeTag closing blanks = x := by
      simpa [own, List.getLast?_append] using hx
    rfl

/-- A statement ends in the middle of a line. -/
theorem Grammatical.after_own (h : l.Grammatical) (hlex : ∀ k ∈ l.own, k.IsLexical) (e : Ending) :
    e.after (String.ofList (textOf l.own)) = .midLine := by
  obtain ⟨k, ks, hown, -⟩ := l.exists_own_eq_cons
  have hlast : l.own.getLast? = some (l.own.getLast (by simp [hown])) :=
    List.getLast?_eq_some_getLast _
  exact Ending.after_textOf e hlast (hlex _ (List.getLast_mem _)) (h.isGap_getLast? _ hlast)

end Layout

/-- The gap that rendering puts before a node of a file: it starts a new line if need be. -/
def renewedGap (before : Ending) (gap : List Chunk) : List Chunk :=
  if before = .midLine && !(textOf gap).contains '\n' then .newline ['\n'] :: gap else gap

theorem separator_eq {source : SourceFile} {l : Layout} {f : Fragment} (h : l.Shows source f)
    (depth : Nat) (before : Ending) :
    separator depth before ⟨f, false⟩ = String.ofList (textOf (renewedGap before l.gap)) := by
  have hgap := h.leading_text
  simp only [separator, hgap, renewedGap, String.toList_ofList, Bool.false_eq_true, if_false]
  split
  · rw [textOf_cons, String.ofList_append]
    rfl
  · rfl

theorem renewedGap_all_isGap {gap : List Chunk} (hgap : gap.all Chunk.isGap = true)
    (before : Ending) : (renewedGap before gap).all Chunk.isGap = true := by
  unfold renewedGap
  split
  · rw [List.all_cons, hgap]
    rfl
  · exact hgap

theorem breaksLine_renewedGap {gap : List Chunk} (h : breaksLine gap = true) {before : Ending} :
    breaksLine (renewedGap before gap) = true := by
  unfold renewedGap
  split
  · simp [breaksLine]
  · exact h

theorem Chunk.isGap.meets {x y : Chunk} (hx : x.isGap = true) : x.meets y = true := by
  unfold Chunk.isGap at hx
  unfold Chunk.meets
  split at hx <;> simp_all

/-- A renewed gap is written, whatever comes after it. -/
theorem written_renewedGap {gap rest : List Chunk} (hgap : Written gap)
    (hall : gap.all Chunk.isGap = true) (hrest : Written rest) (before : Ending) :
    Written (renewedGap before gap ++ rest) := by
  have happend : Written (gap ++ rest) := Written.append_iff.2 ⟨hgap, hrest, fun x hx y _ =>
    Chunk.isGap.meets (List.all_eq_true.1 hall x (List.mem_of_getLast? hx))⟩
  unfold renewedGap
  split
  · rw [List.cons_append, Written.cons_iff]
    exact ⟨.newline (.inl rfl), happend, fun y _ => rfl⟩
  · exact happend

/-! ## Arguments -/

/-- The parameters of a statement are those of its file, or plain. -/
def Statement.IsPlain (core : Core) (statement : Statement) : Prop :=
  core.keeps statement.parameters = true ∨ ∀ p ∈ statement.parameters, isPlainParameter p = true

/-- The chunks that rendering puts in the place of arguments. -/
def renewedArguments (core : Core) (statement : Statement) (arguments : List Chunk) : List Chunk :=
  if core.keeps statement.parameters then arguments else parameterChunks statement.parameters

section

variable {source : SourceFile} {gap arguments trailing : List Chunk} {name closing : String}
  {inside : List Layout} {blanks : List Char} {core : Core} {statement : Statement}

theorem keeps_iff (hparsed : core.origin.synthetic = false) {parameters : List String} :
    core.keeps parameters = true ↔ core.origin.fragment.arguments? = some parameters := by
  simp [Core.keeps, hparsed]

/-- A directive is rendered to its name and the renewed arguments. -/
theorem Layout.Shows.directive_eq
    (h : (Layout.directive gap name arguments).Shows source core.origin.fragment)
    (hname : statement.name = name) (depth : Nat) (before : Ending) :
    ((Tree.directive core statement).renderAfter depth before).toList =
      textOf (.word name :: renewedArguments core statement arguments) := by
  rw [Tree.renderAfter, renewedArguments]
  split
  · rw [h.text, String.toList_ofList, Layout.own]
  · subst hname
    exact textOf_line ..

/-- The renewed arguments of a directive are read back as its parameters. -/
theorem Layout.Shows.gatherArguments_renewed
    (h : (Layout.directive gap name arguments).Shows source core.origin.fragment)
    (statement : Statement) (hparsed : core.origin.synthetic = false) :
    gatherArguments false [] (renewedArguments core statement arguments) =
      statement.parameters := by
  rw [Layout.Shows] at h
  rw [renewedArguments]
  split
  · rename_i hkeeps
    -- kept parameters are those that were read from these arguments
    have hsame := (keeps_iff hparsed).1 hkeeps
    rw [Fragment.arguments?, h.1] at hsame
    exact Option.some.inj hsame
  · rw [gatherArguments_parameterChunks, List.nil_append]

theorem Layout.Shows.isDocument_eq_false
    (h : (Layout.block gap name arguments inside trailing closing blanks).Shows source
      core.origin.fragment) : core.origin.isDocument = false := by
  rw [Layout.Shows] at h
  simp [Origin.isDocument, h.1]

/-- A block starts with its name and the renewed arguments. -/
theorem Layout.Shows.opening_eq
    (h : (Layout.block gap name arguments inside trailing closing blanks).Shows source
      core.origin.fragment)
    (hname : statement.name = name) :
    (core.opening statement).toList =
      textOf (openTagChunks name (renewedArguments core statement arguments)) := by
  rw [Core.opening, h.isDocument_eq_false, if_neg (by simp), renewedArguments]
  rw [Layout.Shows] at h
  split
  · rw [h.2.2.slice_eq, h.2.2.header.slice_eq, String.toList_ofList]
  · subst hname
    exact textOf_tagLine ..

/-- An open tag stays written with renewed arguments. -/
theorem Statement.IsPlain.written_openTag (h : statement.IsPlain core)
    (htag : Written (openTagChunks name arguments)) :
    Written (openTagChunks name (renewedArguments core statement arguments)) := by
  unfold renewedArguments
  split
  · exact htag
  · refine written_tagLine (htag.isLexical _ (by simp [openTagChunks])) ?_
    exact h.resolve_left ‹_›

theorem all_isTagArgument_renewed (h : arguments.all Chunk.isTagArgument = true) :
    (renewedArguments core statement arguments).all Chunk.isTagArgument = true := by
  unfold renewedArguments
  split
  · exact h
  · exact all_isTagArgument_parameterChunks _

theorem getLast?_openTagChunks (name : String) (arguments : List Chunk) :
    (openTagChunks name arguments).getLast? = some .tagEnd := by
  simp [openTagChunks, List.getLast?_cons]

/-- A block without changes is copied. -/
theorem Layout.Shows.block_eq_of_clean
    (h : (Layout.block gap name arguments inside trailing closing blanks).Shows source
      core.origin.fragment)
    (hparsed : core.origin.synthetic = false) (hclean : core.dirty = false) (children : Forest)
    (depth : Nat) (before : Ending) :
    (Tree.block core statement children).renderAfter depth before =
      String.ofList
        (textOf (Layout.block gap name arguments inside trailing closing blanks).own) := by
  have hcopied : core.isRebuilt = false := by
    simp [Core.isRebuilt, h.isDocument_eq_false, hparsed, hclean]
  rw [Tree.renderAfter_of_copied hcopied, h.text]

/-- A block with changes is rendered from its header, its children and what stands after them. -/
theorem Layout.Shows.block_eq
    (h : (Layout.block gap name arguments inside trailing closing blanks).Shows source
      core.origin.fragment)
    (hname : statement.name = name) (hparsed : core.origin.synthetic = false)
    (hdirty : core.dirty = true) (children : Forest) (depth : Nat) (before : Ending) :
    (Tree.block core statement children).renderAfter depth before =
      String.ofList (textOf (openTagChunks name (renewedArguments core statement arguments))) ++
        Forest.renderAfter (depth + 1) .midLine children ++
        String.ofList (textOf (trailing ++ [.closeTag closing blanks])) := by
  have hrebuilt : core.isRebuilt = true := by simp [Core.isRebuilt, hdirty]
  -- each part is that of the layout, with the arguments of the open tag renewed
  have hopening : core.opening statement =
      String.ofList (textOf (openTagChunks name (renewedArguments core statement arguments))) := by
    rw [← h.opening_eq hname, String.ofList_toList]
  have hafter := Ending.after_textOf before
    (getLast?_openTagChunks name (renewedArguments core statement arguments)) .tagEnd rfl
  have hinner : core.inner depth = depth + 1 := by simp [Core.inner, h.isDocument_eq_false]
  have hclosing : core.closing depth statement =
      String.ofList (textOf (trailing ++ [.closeTag closing blanks])) := by
    rw [Core.closing, h.isDocument_eq_false, hparsed]
    rw [Layout.Shows] at h
    simp only [Bool.false_eq_true, if_false]
    rw [h.2.2.slice_eq, h.2.2.slice_eq, h.2.2.trailing.slice_eq, h.2.2.footer.slice_eq,
      textOf_append, String.ofList_append]
  rw [Tree.renderAfter_of_rebuilt hrebuilt, hopening, hafter, hinner, hclosing]

theorem Layout.Shows.tagArguments_renewed
    (h : (Layout.block gap name arguments inside trailing closing blanks).Shows source
      core.origin.fragment)
    (statement : Statement) (hparsed : core.origin.synthetic = false) :
    tagArguments (renewedArguments core statement arguments) = statement.parameters := by
  rw [Layout.Shows] at h
  rw [renewedArguments]
  split
  · rename_i hkeeps
    have hsame := (keeps_iff hparsed).1 hkeeps
    rw [Fragment.arguments?, h.1] at hsame
    exact Option.some.inj hsame
  · exact tagArguments_parameterChunks _

end

end HttpdConf
