import HttpdConf.Proofs.NodeInvariants
import HttpdConf.Proofs.ParameterEdits
import HttpdConf.Proofs.Seams

/-!
# Line-oriented files

In a line-oriented file every statement starts on a line of its own, every close tag too, and no
gap joins lines. Whatever is added to the tree of such a file, deleted from it or given new
parameters, as long as the new texts are plain, the rendered file can be read and says what the
tree says. This needs no record of the edits: each node of the tree is either new and plain, or it
was read from a layout without joined lines, and rendering puts such nodes together in any order.

## Main definitions

* `Fragment.isLineOriented`: whether a document is line-oriented
* `Edit.isPlain`: whether all texts that an edit brings are plain
* `Tree.IsNeat`: a node that is new and plain, or was read from a neat layout

## Main results

* `Tree.exists_prints`, `Forest.exists_prints`: neat nodes are rendered to layouts
* `Edit.keeps_isNeat`: plain edits keep nodes neat
* `read_render_of_isLineOriented`: after plain edits, a line-oriented file is read back as it is
-/

namespace HttpdConf

/-! ## Line-oriented documents -/

/-- Whether the gaps of a fragment join no lines, its close tag starts on a new line, and its text
does not join the next line. -/
def Fragment.isNeat (f : Fragment) : Bool :=
  !(f.slice f.leading).toList.contains '\\' && !(f.slice f.trailing).toList.contains '\\' &&
    match f.kind with
    | .block _ _ => (f.slice f.trailing).toList.contains '\n'
    | .directive _ _ => f.text.toList.getLast? != some '\\'
    | _ => true

/-- Whether all statements of a document but the first start on a new line, and all are neat. -/
def Fragment.isLineOriented (document : Fragment) : Bool :=
  document.descendants.tail.all (fun f => (f.slice f.leading).toList.contains '\n') &&
    (document :: document.descendants).all isNeat

/-- Whether the texts of a new node are plain. -/
def NodeContent.isPlain : NodeContent → Bool
  | comment text => isPlainComment text
  | directive name parameters => isPlainWord name && parameters.all isPlainParameter
  | block name parameters => isPlainName name && parameters.all isPlainParameter

/-- Whether all texts that an edit brings are plain. -/
def Edit.isPlain : Edit → Bool
  | .add _ content _ => content.isPlain
  | .setParameters _ parameters => parameters.all isPlainParameter
  | .delete _ _ | .look _ => true

/-! ## Neat layouts and nodes -/

namespace Layout

mutual
/-- The gaps of the layout join no lines, close tags start on new lines, and directives do not
join the next line. -/
def Neat : Layout → Prop
  | comment gap _ => Loose gap
  | directive gap name arguments =>
    Loose gap ∧ (textOf (.word name :: arguments)).getLast? ≠ some '\\'
  | block gap _ _ inside trailing _ _ =>
    Loose gap ∧ NeatAll inside ∧ Loose trailing ∧ breaksLine trailing = true

def NeatAll : List Layout → Prop
  | [] => True
  | l :: ls => l.Neat ∧ NeatAll ls
end

/-- The node says what the layout says, except that it may have plain parameters of its own. -/
def Agrees : Layout → Tree → Prop
  | comment _ text, .comment _ text' => text' = commentText text
  | directive _ name _, .directive core statement => statement.name = name ∧ statement.IsPlain core
  | block _ name _ _ _ _ _, .block core statement _ =>
    statement.name = name ∧ statement.IsPlain core
  | _, _ => False

theorem Neat.loose {l : Layout} (h : l.Neat) : Loose l.gap := by
  cases l <;> rw [Neat] at h
  · exact h
  · exact h.1
  · exact h.1

end Layout

/-- Whether the texts of a node are plain. -/
def Tree.isPlain : Tree → Bool
  | .comment _ text => isPlainComment text
  | .directive _ statement =>
    isPlainWord statement.name && statement.parameters.all isPlainParameter
  | .block _ statement _ =>
    isPlainName statement.name && statement.parameters.all isPlainParameter

/-- The node comes from a neat layout, which it still matches. -/
structure Layout.IsNeatOriginOf (source : SourceFile) (l : Layout) (t : Tree) : Prop where
  isOriginOf : l.IsOriginOf source t
  agrees : l.Agrees t
  neat : l.Neat
  grammatical : l.Grammatical
  written : Written l.own

/-- The node is new and plain, or was read from a neat layout. -/
def Tree.IsNeat (source : SourceFile) (t : Tree) : Prop :=
  (t.core.origin.synthetic = true ∧ t.isPlain = true) ∨ ∃ l : Layout, l.IsNeatOriginOf source t

namespace Fragment

variable {f : Fragment} {source : SourceFile}

theorem isNeat_iff : f.isNeat = true ↔
    '\\' ∉ (f.slice f.leading).toList ∧ '\\' ∉ (f.slice f.trailing).toList ∧
      match f.kind with
      | .block _ _ => '\n' ∈ (f.slice f.trailing).toList
      | .directive _ _ => f.text.toList.getLast? ≠ some '\\'
      | _ => True := by
  unfold isNeat
  split <;> simp [and_assoc, *]

end Fragment

namespace Layout

mutual
/-- A layout that a neat fragment shows is neat. -/
theorem Shows.neat {source : SourceFile} (l : Layout) {f : Fragment} (h : l.Shows source f)
    (hl : l.Grammatical) (hlex : ∀ k ∈ l.gap ++ l.own, k.IsLexical)
    (hneat : ∀ g ∈ f :: f.descendants, g.isNeat = true) : l.Neat := by
  have hself := Fragment.isNeat_iff.1 (hneat f (by simp))
  have hgap : Loose l.gap := by
    refine ⟨hl.all_isGap, fun k hk => hlex k (by simp [hk]), ?_⟩
    simpa [h.leading_text] using hself.1
  match l with
  | .comment gap text => rwa [Neat]
  | .directive gap name arguments =>
    have htext := h.text
    rw [Shows] at h
    rw [h.1, htext] at hself
    rw [Neat]
    exact ⟨hgap, by simpa [own] using hself.2.2⟩
  | .block gap name arguments inside trailing closing blanks =>
    rw [Shows] at h
    obtain ⟨hkind, hinside, hparts⟩ := h
    obtain ⟨-, -, hgrammatical, -⟩ := hl
    rw [hkind, hparts.slice_eq, hparts.slice_eq, hparts.trailing.slice_eq,
      String.toList_ofList] at hself
    have htrailing : Loose trailing :=
      ⟨hgrammatical.trailing, fun k hk => hlex k (by simp [own, hk]), hself.2.1⟩
    rw [Neat]
    -- without joined lines, the line break in the text of the gap is one of its chunks
    refine ⟨hgap, ?_, htrailing, htrailing.breaksLine hself.2.2⟩
    refine ShowsAll.neat inside hinside hgrammatical (fun k hk => hlex k (by simp [own, hk])) ?_
    intro g hg
    exact hneat g (by simp [Fragment.descendants_eq, hg])

theorem ShowsAll.neat {source : SourceFile} {last : Bool} {trailing : List Chunk} (ls : List Layout)
    {fs : List Fragment} (h : ShowsAll source ls fs) (hls : GrammaticalAll last trailing ls)
    (hlex : ∀ k ∈ ownAll ls, k.IsLexical)
    (hneat : ∀ g ∈ Fragment.descendantsOfAll fs, g.isNeat = true) : NeatAll ls := by
  match ls with
  | [] => trivial
  | l :: ls =>
    rw [ShowsAll] at h
    obtain ⟨f, rest, rfl, hf, hrest⟩ := h
    rw [Fragment.descendantsOfAll] at hneat
    rw [NeatAll]
    refine ⟨Shows.neat l hf hls.1 (fun k hk => hlex k ?_) (fun g hg => hneat g ?_),
      ShowsAll.neat ls hrest hls.2.2 (fun k hk => hlex k (by simp [hk]))
        (fun g hg => hneat g (by simp [hg]))⟩
    · rcases List.mem_append.1 hk with hk | hk <;> simp [hk]
    · rcases List.mem_cons.1 hg with hg | hg <;> simp [hg]
end

mutual
/-- A mirror of a neat layout has neat nodes only. -/
theorem Mirrors.isNeat {source : SourceFile} (l : Layout) {t : Tree} (h : l.Mirrors source t)
    (hneat : l.Neat) (hl : l.Grammatical) (hw : Written l.own) :
    ∀ u ∈ t.nodes, u.IsNeat source := by
  have horigin := h.isOriginOf
  match l with
  | .comment gap text =>
    rw [Mirrors] at h
    obtain ⟨core, rfl⟩ := h.2
    intro u hu
    obtain rfl : u = .comment core (commentText text) := by simpa [Tree.nodes] using hu
    exact .inr ⟨_, horigin, rfl, hneat, hl, hw⟩
  | .directive gap name arguments =>
    rw [Mirrors] at h
    obtain ⟨core, statement, rfl, hname, hplain⟩ := h.2
    intro u hu
    obtain rfl : u = .directive core statement := by simpa [Tree.nodes] using hu
    exact .inr ⟨_, horigin, ⟨hname, hplain⟩, hneat, hl, hw⟩
  | .block gap name arguments inside trailing closing blanks =>
    rw [Mirrors] at h
    obtain ⟨core, statement, children, rfl, hname, hplain, hinside⟩ := h.2
    intro u hu
    rw [Tree.nodes] at hu
    rcases List.mem_cons.1 hu with rfl | hu
    · exact .inr ⟨_, horigin, ⟨hname, hplain⟩, hneat, hl, hw⟩
    · -- the nodes inside are those of a neat layout that is written by itself
      rw [Neat] at hneat
      rw [own, Written.append_iff] at hw
      exact MirrorsAll.isNeat inside hinside hneat.2.1 hl.2.2.1 hw.2.1 u hu

theorem MirrorsAll.isNeat {source : SourceFile} {last : Bool} {trailing rest : List Chunk}
    (ls : List Layout) {f : Forest} (h : MirrorsAll source ls f) (hneat : NeatAll ls)
    (hls : GrammaticalAll last trailing ls) (hw : Written (ownAll ls ++ rest)) :
    ∀ u ∈ Forest.nodes f, u.IsNeat source := by
  match ls with
  | [] =>
    rw [MirrorsAll] at h
    simp [h]
  | l :: ls =>
    rw [MirrorsAll] at h
    obtain ⟨t, f, rfl, ht, hf⟩ := h
    rw [NeatAll] at hneat
    rw [ownAll_cons, List.append_assoc, List.append_assoc] at hw
    obtain ⟨-, hown, -⟩ := Written.append_iff.1 hw
    obtain ⟨hl, hlater, -⟩ := Written.append_iff.1 hown
    intro u hu
    rw [Forest.nodes_cons, List.mem_append] at hu
    exact hu.elim (Mirrors.isNeat l ht hneat.1 hls.1 hl u)
      (MirrorsAll.isNeat ls hf hneat.2 hls.2.2 hlater u)
end

end Layout

/-! ## What is rendered -/

namespace Layout

variable {source : SourceFile} {core : Core} {statement : Statement} {l : Layout} {t : Tree}

/-- A copied text is that of its layout. -/
theorem IsNeatOriginOf.prints (h : l.IsNeatOriginOf source t) (hshape : t.shape = l.shape) :
    l.Prints t t.core.origin.fragment.text.toList := by
  refine ⟨by rw [h.isOriginOf.shows.text, String.toList_ofList], hshape.symm, h.grammatical,
    h.written, fun x hx => ?_⟩
  have hneat := h.neat
  have hlast := getLast?_textOf hx (h.written.isLexical x (List.mem_of_getLast? hx)).text_ne_nil
  -- the text must not end in a backslash, which only a directive could do
  cases l with
  | comment gap text => exact .inl ⟨text, by simpa [own] using hx.symm⟩
  | directive gap name arguments =>
    rw [Neat] at hneat
    rw [own] at hlast
    exact .inr (hlast ▸ hneat.2)
  | block gap name arguments inside trailing closing blanks =>
    obtain rfl : Chunk.closeTag closing blanks = x := by simpa [own, List.getLast?_append] using hx
    right
    simp [List.getLast?_cons, List.getLast?_append]

/-- A directive that is written anew has the layout of its line. -/
theorem prints_directiveLine (hname : (Chunk.word statement.name).IsLexical)
    (hparameters : ∀ p ∈ statement.parameters, isPlainParameter p = true)
    (hline : statement.line.toList.getLast? ≠ some '\\') :
    Prints (.directive core statement) statement.line.toList
      (.directive [] statement.name (parameterChunks statement.parameters)) := by
  have htext : statement.line.toList =
      textOf (.word statement.name :: parameterChunks statement.parameters) := textOf_line ..
  have hw := written_directiveLine hname hparameters
  refine ⟨by rw [htext, own], ?_, ⟨rfl, all_isArgument_parameterChunks _,
    token_getLast?_parameterChunks _⟩, by rwa [own], fun x hx => .inr ?_⟩
  · rw [shape, Tree.shape, gatherArguments_parameterChunks, List.nil_append]
  · rw [own] at hx
    rwa [← getLast?_textOf hx (hw.isLexical x (List.mem_of_getLast? hx)).text_ne_nil, ← htext]

end Layout

section

variable {source : SourceFile} {core : Core} {statement : Statement}

theorem Tree.exists_prints_comment {text : String} (h : (Tree.comment core text).IsNeat source)
    (depth : Nat) (before : Ending) :
    ∃ l : Layout, l.Prints (.comment core text)
      ((Tree.comment core text).renderAfter depth before).toList := by
  rw [Tree.renderAfter]
  rcases h with ⟨hsynthetic, hplain⟩ | ⟨l, hl⟩
  · -- a new comment is a line of its own
    have hsynthetic' : core.origin.synthetic = true := hsynthetic
    have hplain' : isPlainComment text = true := hplain
    rw [if_pos hsynthetic']
    refine ⟨.comment [] (commentLine text), by simp [Layout.own], ?_, rfl, ?_, ?_⟩
    · rw [Layout.shape, Tree.shape, commentText_commentLine hplain']
    · rw [Layout.own, Written.cons_iff]
      exact ⟨isLexical_comment hplain', .nil, by simp⟩
    · exact fun x hx => .inl ⟨_, by simpa [Layout.own] using hx.symm⟩
  · -- a comment that was read is copied
    have hparsed : core.origin.synthetic = false := hl.isOriginOf.parsed
    rw [hparsed, if_neg (by simp)]
    refine ⟨l, hl.prints ?_⟩
    have hagrees := hl.agrees
    cases l <;> simp only [Layout.Agrees] at hagrees
    rw [Tree.shape, Layout.shape, hagrees]

theorem Tree.exists_prints_directive (h : (Tree.directive core statement).IsNeat source)
    (hends : (Tree.directive core statement).endsPlainly = true) (depth : Nat) (before : Ending) :
    ∃ l : Layout, l.Prints (.directive core statement)
      ((Tree.directive core statement).renderAfter depth before).toList := by
  rw [Tree.renderAfter]
  rcases h with ⟨hsynthetic, hplain⟩ | ⟨l, hl⟩
  · -- a new directive keeps no arguments, so its line is written from its parameters
    have hkeeps : core.keeps statement.parameters = false := by
      have hsynthetic' : core.origin.synthetic = true := hsynthetic
      simp [Core.keeps, hsynthetic']
    simp only [Tree.isPlain, Bool.and_eq_true] at hplain
    rw [hkeeps, if_neg (by simp)]
    refine ⟨_, Layout.prints_directiveLine (isLexical_word hplain.1)
      (List.all_eq_true.1 hplain.2) ?_⟩
    simpa [Tree.endsPlainly, hkeeps] using hends
  · have hagrees := hl.agrees
    have hparsed : core.origin.synthetic = false := hl.isOriginOf.parsed
    cases l <;> simp only [Layout.Agrees] at hagrees
    rename_i gap name arguments
    obtain ⟨rfl, hplain⟩ := hagrees
    -- a directive that was read is copied as long as it has the arguments it was read with
    split
    · rename_i hkeeps
      refine ⟨_, hl.prints ?_⟩
      have hshows : Layout.Shows source _ core.origin.fragment := hl.isOriginOf.shows
      have hgather := hshows.gatherArguments_renewed statement hparsed
      rw [renewedArguments, if_pos hkeeps] at hgather
      rw [Tree.shape, Layout.shape, hgather]
    · rename_i hkeeps
      have hword : (Chunk.word statement.name).IsLexical :=
        hl.written.isLexical _ (by simp [Layout.own])
      refine ⟨_, Layout.prints_directiveLine hword (hplain.resolve_left hkeeps) ?_⟩
      simpa [Tree.endsPlainly, hkeeps] using hends

/-- A new block is rendered from its tags and what is inside. -/
theorem Tree.render_new_block (hsynthetic : core.origin.synthetic = true) (children : Forest)
    (depth : Nat) (before : Ending) :
    ((Tree.block core statement children).renderAfter depth before).toList =
      textOf (openTagChunks statement.name (parameterChunks statement.parameters)) ++
        ((Forest.renderAfter (depth + 1) .midLine children).toList ++ textOf (newLine depth) ++
          (Chunk.closeTag statement.name []).text) := by
  have hdocument : core.origin.isDocument = false := by simp [Origin.isDocument, hsynthetic]
  have hkeeps : core.keeps statement.parameters = false := by simp [Core.keeps, hsynthetic]
  have hrebuilt : core.isRebuilt = true := by simp [Core.isRebuilt, hsynthetic]
  have hopening : core.opening statement = String.ofList
      (textOf (openTagChunks statement.name (parameterChunks statement.parameters))) := by
    have hline : ("<" ++ statement.line ++ ">").toList =
        textOf (openTagChunks statement.name (parameterChunks statement.parameters)) :=
      textOf_tagLine ..
    rw [Core.opening, hdocument, hkeeps, ← hline, String.ofList_toList]
    rfl
  have hafter := Ending.after_textOf before
    (getLast?_openTagChunks statement.name (parameterChunks statement.parameters)) .tagEnd rfl
  have hinner : core.inner depth = depth + 1 := by simp [Core.inner, hdocument]
  rw [Tree.renderAfter_of_rebuilt hrebuilt, hopening, hafter, hinner, Core.closing, hdocument,
    hsynthetic, textOf_newLine]
  simp

/-- What is put before a neat node is a gap without joined lines, which ends a line if need be. -/
theorem Tree.IsNeat.exists_lead {t : Tree} (h : t.IsNeat source) (depth : Nat) {before : Ending}
    (hbefore : before ≠ .lineEnd) :
    ∃ lead, (separator depth before t.core.origin).toList = textOf lead ∧ Loose lead ∧
      (before = .midLine → breaksLine lead = true) := by
  rcases h with ⟨hsynthetic, -⟩ | ⟨l, hl⟩
  · rw [separator, if_pos hsynthetic]
    split
    · rename_i hnothing
      exact ⟨[], rfl, loose_nil, by simp [hnothing]⟩
    · exact ⟨newLine depth, (textOf_newLine depth).symm, loose_newLine depth, fun _ => rfl⟩
  · -- a gap of the file starts a new line if it has no line break itself
    refine ⟨renewedGap before l.gap, ?_, ?_, ?_⟩
    · have hsep := separator_eq hl.isOriginOf.shows depth before
      rw [← hl.isOriginOf.parsed] at hsep
      rw [hsep, String.toList_ofList]
    · unfold renewedGap
      split
      · exact loose_newline hl.neat.loose
      · exact hl.neat.loose
    · rintro rfl
      unfold renewedGap
      split
      · rfl
      · rename_i hnone
        exact hl.neat.loose.breaksLine (by simpa using hnone)

end

mutual
/-- A neat node with neat nodes inside is rendered to a layout. -/
theorem Tree.exists_prints {source : SourceFile} (depth : Nat) (before : Ending) (t : Tree)
    (hneat : ∀ u ∈ t.nodes, u.IsNeat source) (hends : ∀ u ∈ t.nodes, u.endsPlainly = true) :
    ∃ l : Layout, l.Prints t (t.renderAfter depth before).toList := by
  have hself := hneat t t.self_mem_nodes
  match t with
  | .comment core text => exact Tree.exists_prints_comment hself depth before
  | .directive core statement =>
    exact Tree.exists_prints_directive hself (hends _ (Tree.self_mem_nodes _)) depth before
  | .block core statement children =>
    -- whatever gap comes before the close tag, the children are printed up to it
    have hinside : ∀ {gap : List Chunk}, Loose gap → breaksLine gap = true → ∃ ls gap',
        Layout.PrintsAll false .midLine children
          ((Forest.renderAfter (depth + 1) .midLine children).toList ++ textOf gap) ls gap' :=
      fun hgap hbreaks => Forest.exists_prints (depth + 1) .midLine false children (by decide)
        hgap (fun _ => hbreaks) (fun u hu => hneat u (Tree.mem_nodes_of_mem_children hu))
        (fun u hu => hends u (Tree.mem_nodes_of_mem_children hu))
    rcases hself with ⟨hsynthetic, hplain⟩ | ⟨l, hl⟩
    · obtain ⟨ls, gap', hprints⟩ := hinside (loose_newLine depth) rfl
      simp only [Tree.isPlain, Bool.and_eq_true] at hplain
      rw [@Tree.render_new_block core statement hsynthetic]
      exact ⟨_, Layout.prints_block (all_isTagArgument_parameterChunks _)
        (tagArguments_parameterChunks _)
        (written_tagLine (isLexical_openTag hplain.1) (List.all_eq_true.1 hplain.2))
        (isLexical_closeTag hplain.1) (Text.sameName_refl _) hprints⟩
    · have hagrees := hl.agrees
      cases l <;> simp only [Layout.Agrees] at hagrees
      rename_i gap name arguments inside trailing closing blanks
      obtain ⟨rfl, hplain⟩ := hagrees
      have hparsed : core.origin.synthetic = false := hl.isOriginOf.parsed
      have hshows : Layout.Shows source _ core.origin.fragment := hl.isOriginOf.shows
      -- a block with changes keeps its tags and its last gap, one without is copied
      by_cases hdirty : core.dirty = true
      · have hlneat := hl.neat
        have hw := hl.written
        rw [Layout.Neat] at hlneat
        rw [Layout.own] at hw
        obtain ⟨-, harguments, -, hsame⟩ := hl.grammatical
        have htag := hplain.written_openTag (Written.append_iff.1 hw).1
        have hclose := hw.isLexical (.closeTag closing blanks) (by simp)
        obtain ⟨ls, gap', hprints⟩ := hinside hlneat.2.2.1 hlneat.2.2.2
        have htext : ((Tree.block core statement children).renderAfter depth before).toList =
            textOf (openTagChunks statement.name (renewedArguments core statement arguments)) ++
              ((Forest.renderAfter (depth + 1) .midLine children).toList ++ textOf trailing ++
                (Chunk.closeTag closing blanks).text) := by
          rw [hshows.block_eq rfl hparsed hdirty]
          simp
        rw [htext]
        exact ⟨_, Layout.prints_block (all_isTagArgument_renewed harguments)
          (hshows.tagArguments_renewed statement hparsed) htag hclose hsame hprints⟩
      · have hclean : core.dirty = false := by simpa using hdirty
        have hcopy : (Tree.block core statement children).renderAfter depth before =
            core.origin.fragment.text := by
          rw [hshows.block_eq_of_clean hparsed hclean, hshows.text]
        rw [hcopy]
        exact ⟨_, hl.prints (hl.isOriginOf.shape_eq hclean)⟩

theorem Forest.exists_prints {source : SourceFile} (depth : Nat) (before : Ending) (last : Bool)
    {gap : List Chunk} (f : Forest) (hbefore : before ≠ .lineEnd) (hgap : Loose gap)
    (hclosed : last = false → breaksLine gap = true)
    (hneat : ∀ u ∈ Forest.nodes f, u.IsNeat source)
    (hends : ∀ u ∈ Forest.nodes f, u.endsPlainly = true) :
    ∃ ls gap', Layout.PrintsAll last before f
      ((Forest.renderAfter depth before f).toList ++ textOf gap) ls gap' := by
  match f with
  | [] => exact ⟨[], gap, Layout.printsAll_nil before hgap hclosed⟩
  | t :: f =>
    obtain ⟨lead, hlead, hloose, hbreaks⟩ :=
      (hneat t (by simp [Tree.self_mem_nodes])).exists_lead depth hbefore
    obtain ⟨l, hl⟩ := Tree.exists_prints depth
      (before.after (separator depth before t.core.origin)) t
      (fun u hu => hneat u (by simp [hu])) (fun u hu => hends u (by simp [hu]))
    obtain ⟨ls, gap', hf⟩ := Forest.exists_prints depth .midLine last f (by decide) hgap hclosed
      (fun u hu => hneat u (by simp [hu])) (fun u hu => hends u (by simp [hu]))
    -- a statement ends in the middle of a line, which the next gap has to break
    have hafter : (before.after (separator depth before t.core.origin)).after
        (t.renderAfter depth (before.after (separator depth before t.core.origin))) =
        .midLine := by
      rw [← String.ofList_toList (s := t.renderAfter ..), hl.text_eq]
      exact hl.grammatical.after_own hl.written.isLexical _
    obtain ⟨ls', gap'', hall⟩ := hl.cons hloose hbreaks hf
    refine ⟨ls', gap'', ?_⟩
    rw [Forest.renderAfter]
    simpa only [hafter, String.toList_append, hlead, List.append_assoc] using hall
end

/-! ## What edits keep -/

section

variable {source : SourceFile} {document : Fragment} {t u : Tree} {f : Forest}

/-- A neat node stays neat when it is changed in other ways than its origin. -/
theorem Tree.IsNeat.of_dirty (h : t.IsNeat source) (horigin : u.core.origin = t.core.origin)
    (hdirty : u.core.dirty = true) (hplain : t.isPlain = true → u.isPlain = true)
    (hagrees : ∀ l : Layout, l.Agrees t → l.Agrees u) : u.IsNeat source := by
  rcases h with ⟨hsynthetic, ht⟩ | ⟨l, hl⟩
  · exact .inl ⟨horigin ▸ hsynthetic, hplain ht⟩
  · exact .inr ⟨l, hl.isOriginOf.of_dirty horigin hdirty, hagrees l hl.agrees, hl.neat,
      hl.grammatical, hl.written⟩

theorem Tree.IsNeat.block_of_dirty {core core' : Core} {statement : Statement}
    {children children' : Forest} (h : (Tree.block core statement children).IsNeat source)
    (horigin : core'.origin = core.origin) (hdirty : core'.dirty = true) :
    (Tree.block core' statement children').IsNeat source := by
  refine h.of_dirty horigin hdirty (fun hplain => hplain) fun l hl => ?_
  cases l <;> simp only [Layout.Agrees] at hl ⊢
  simpa [Statement.IsPlain, Core.keeps, horigin] using hl

/-- A new node with plain texts is neat. -/
theorem NodeContent.isNeat_tree {content : NodeContent} (h : content.isPlain = true) (core : Core)
    (next : NodeId) : (content.tree (core.child next) true []).forget.IsNeat source := by
  left
  cases content with
  | comment text => exact ⟨rfl, h⟩
  | directive name parameters => exact ⟨rfl, h⟩
  | block name parameters => exact ⟨rfl, h⟩

/-- Plain parameters leave a node neat. -/
theorem Tree.IsNeat.setParameters {parameters : List String} (h : t.IsNeat source)
    (hplain : parameters.all isPlainParameter = true) :
    ((t.mapStatement ({ · with parameters })).mapCore Core.touched).IsNeat source := by
  have hall := List.all_eq_true.1 hplain
  refine h.of_dirty (by simp [Core.touched]) (by simp [Core.touched]) (fun ht => ?_) fun l hl => ?_
  · cases t <;> simp_all [Tree.isPlain, Tree.mapStatement, Tree.mapCore]
  · cases t <;> cases l <;> simp only [Layout.Agrees, Tree.mapStatement, Tree.mapCore] at hl ⊢
    · exact hl
    · exact ⟨hl.1, .inr hall⟩
    · exact ⟨hl.1, .inr hall⟩

/-- A plain edit keeps nodes neat. -/
theorem Edit.keeps_isNeat {e : Edit} (he : e.isPlain = true) :
    e.Keeps document (Tree.IsNeat source) where
  -- a block around a change is dirty, so it need not say what its layout says
  block hblock horigin _ hdirty := hblock.block_of_dirty horigin hdirty
  touched {u} hu := by
    refine hu.of_dirty (by simp [Core.touched]) (by simp [Core.touched]) (fun ht => ?_)
      fun l hl => ?_
    · cases u <;> exact ht
    · cases u <;> cases l <;> exact hl
  new := by
    rintro _ _ _ _ _ rfl -
    exact NodeContent.isNeat_tree he _ _
  parameters := by
    rintro _ _ _ rfl hu
    exact hu.setParameters he

/-! ## Whole documents -/

/-- A line-oriented document is opened with neat nodes only. -/
theorem Page.Shows.isNeat_opened {p : Page} (h : p.Shows source document) (hp : p.Legible)
    (hline : document.isLineOriented = true) (policy : Policy) :
    (Sheet.opened document policy).tree.IsDocumentWith document (Tree.IsNeat source) := by
  simp only [Fragment.isLineOriented, Bool.and_eq_true, List.all_eq_true] at hline
  refine ⟨_, _, none, rfl, rfl, rfl, ?_⟩
  have hneat := h.children.neat p.statements hp.grammatical
    (fun k hk => hp.written.isLexical k (by simp [Page.chunks, hk]))
    fun g hg => hline.2 g (by simp [Fragment.descendants_eq, hg])
  have hmirrors := (Layout.ShowsAll.mirrors ⟨policy, 0⟩ 0 1 p.statements h.children).1
  exact hmirrors.isNeat p.statements hneat hp.grammatical hp.written

/-- A line-oriented document of neat nodes is rendered to a text that is read back as it is. -/
theorem Page.Shows.read_render {p : Page} (hshows : p.Shows source document) (hp : p.Legible)
    (hline : document.isLineOriented = true)
    (h : t.IsDocumentWith document (Tree.IsNeat source))
    (hends : ∀ u ∈ t.nodes, u.endsPlainly = true) (path : Path) :
    ∃ document', Fragment.read ⟨path, t.renderAfter 0 .nothing⟩ = .ok document' ∧
      document'.shape = t.shape := by
  obtain ⟨core, children, standing, rfl, horigin, -, hneat⟩ := h
  simp only [Fragment.isLineOriented, Bool.and_eq_true, List.all_eq_true] at hline
  -- the gap at the end of the file has no joined lines either
  have htrailing : Loose p.trailing := by
    refine ⟨hp.grammatical.trailing, fun k hk => hp.written.isLexical k (by simp [Page.chunks, hk]),
      ?_⟩
    have hself := Fragment.isNeat_iff.1 (hline.2 document (by simp))
    rw [hshows.parts.slice_eq document.trailing, hshows.parts.trailing.slice_eq,
      String.toList_ofList] at hself
    exact hself.2.1
  obtain ⟨ls, gap, hall⟩ := Forest.exists_prints 0 .nothing true children (by decide) htrailing
    (by simp) hneat fun u hu => hends u (Tree.mem_nodes_of_mem_children hu)
  exact hshows.exists_read_render horigin ⟨hall.written, hall.grammatical⟩ hall.text_eq
    hall.shapes_eq path

end

/-- Whatever is added to a line-oriented file, deleted from it or given other parameters, if all new
texts are plain, the rendered file can be read and says what the tree says. -/
theorem read_render_of_isLineOriented {source : SourceFile} {document : Fragment} {policy : Policy}
    {edits : List Edit} {r : Tree} {w : Workspace} (hread : Fragment.read source = .ok document)
    (hline : document.isLineOriented = true) (h : editFile source policy edits = some (r, w))
    (hedits : ∀ e ∈ edits, e.isPlain = true) (hends : ∀ t ∈ r.nodes, t.endsPlainly = true)
    (path : Path) :
    ∃ document', Fragment.read ⟨path, w.forest.render [r]⟩ = .ok document' ∧
      document'.shape = r.shape := by
  obtain ⟨opened, s, hopened, hrun, -, rfl⟩ := exists_sheet_of_editFile h
  obtain rfl : opened = document := Except.ok.inj (hopened.symm.trans hread)
  obtain ⟨p, hp, -, hshows⟩ := Fragment.exists_page_of_read hread
  -- all nodes are neat when the document is opened, and plain edits keep them so
  have hneat := Edit.Keeps.isDocumentWith_run (fun e he => Edit.keeps_isNeat (hedits e he))
    (hshows.isNeat_opened hp hline policy) hrun
  obtain ⟨document', hread', hshape⟩ := hshows.read_render hp hline hneat
    (Tree.forall_endsPlainly_forget hends) path
  refine ⟨document', ?_, by rw [hshape, Tree.shape_forget]⟩
  obtain ⟨core, children, standing, hr, horigin, -⟩ := hneat
  rwa [Forest.render_of_forget _ hr horigin hshows.kind_eq]

/-- Comments that come to stand before blanks, a new block and deleted statements are read back. -/
theorem read_render_of_isLineOriented_rearranged :
    ∃ document r w document',
      Fragment.read ⟨⟨"site.conf"⟩,
        "# top  \nListen 80  \n<A x>\n  B 1 # c\n\tC 2 \t\n</A>\n"⟩ = .ok document ∧
      document.isLineOriented = true ∧
      editFile ⟨⟨"site.conf"⟩, "# top  \nListen 80  \n<A x>\n  B 1 # c\n\tC 2 \t\n</A>\n"⟩
        Policy.default [.delete 3 5, .add 0 (.comment "new") (some 1),
          .add 3 (.block "D" ["\"q r\""]) none, .add 7 (.directive "E" ["f"]) (some 0),
          .delete 0 2, .setParameters 3 []] = some (r, w) ∧
      Fragment.read ⟨⟨"site.conf"⟩, w.forest.render [r]⟩ = .ok document' ∧
      document'.shape = r.shape := by
  have hline : (Fragment.read ⟨⟨"site.conf"⟩,
      "# top  \nListen 80  \n<A x>\n  B 1 # c\n\tC 2 \t\n</A>\n"⟩).toOption.any
        Fragment.isLineOriented = true := by
    decide +kernel
  have hrun : ((editFile ⟨⟨"site.conf"⟩, "# top  \nListen 80  \n<A x>\n  B 1 # c\n\tC 2 \t\n</A>\n"⟩
      Policy.default
        [.delete 3 5, .add 0 (.comment "new") (some 1), .add 3 (.block "D" ["\"q r\""]) none,
          .add 7 (.directive "E" ["f"]) (some 0), .delete 0 2, .setParameters 3 []]).any
      fun edited => edited.1.nodes.all Tree.endsPlainly) = true := by
    decide +kernel
  obtain ⟨document, hread, hline⟩ := (Option.any_eq_true ..).1 hline
  obtain ⟨⟨r, w⟩, h, hends⟩ := (Option.any_eq_true ..).1 hrun
  have hread' := eq_ok_of_toOption hread
  obtain ⟨document', hback⟩ := read_render_of_isLineOriented hread' hline h (by decide)
    (List.all_eq_true.1 hends) ⟨"site.conf"⟩
  exact ⟨document, r, w, document', hread', hline, h, hback⟩

end HttpdConf
