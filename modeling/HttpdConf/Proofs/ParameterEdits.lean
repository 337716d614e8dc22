import HttpdConf.Proofs.Rendering

/-!
# Parameter edits survive a save

When only parameters of a document are changed, its tree still mirrors the page that was read: node
by node, in the same order and nesting, with the same names. Rendering then changes the page in
few places. Arguments are written anew, and a statement that stood on the line of the one before
it may get a line of its own. All other seams between chunks are those of the page that was read,
so that the text is read back as the tree says.

## Main definitions

* `Layout.Mirrors`: a tree that comes from a layout, node by node
* `Tree.endsPlainly`: a directive whose line, if written anew, does not end in a backslash

## Main results

* `Layout.Mirrors.touch`: new parameters leave a tree a mirror of its layout
* `Layout.Mirrors.relaid`, `Layout.MirrorsAll.relaid`: the layouts of what is rendered
* `read_render_of_setParameters`: a document with new parameters is read back as it is
-/

namespace HttpdConf

/-- If the line of a directive is written anew, it does not end in a backslash, which would join it
with the next one. -/
def Tree.endsPlainly : Tree → Bool
  | .directive core statement =>
    core.keeps statement.parameters || statement.line.toList.getLast? != some '\\'
  | _ => true

namespace Layout

/-- The node comes from the layout, and says the same as long as it has no changes. -/
structure IsOriginOf (source : SourceFile) (l : Layout) (t : Tree) : Prop where
  parsed : t.core.origin.synthetic = false
  shows : l.Shows source t.core.origin.fragment
  shape_eq : t.core.dirty = false → t.shape = l.shape

mutual
/-- The nodes of the tree come from the layout one by one. Only parameters may differ, and they are
plain then. -/
def Mirrors (source : SourceFile) : Layout → Tree → Prop
  | comment gap text, t =>
    (comment gap text).IsOriginOf source t ∧ ∃ core, t = .comment core (commentText text)
  | directive gap name arguments, t =>
    (directive gap name arguments).IsOriginOf source t ∧ ∃ core statement,
      t = .directive core statement ∧ statement.name = name ∧ statement.IsPlain core
  | block gap name arguments inside trailing closing blanks, t =>
    (block gap name arguments inside trailing closing blanks).IsOriginOf source t ∧
      ∃ core statement children, t = .block core statement children ∧ statement.name = name ∧
        statement.IsPlain core ∧ MirrorsAll source inside children

def MirrorsAll (source : SourceFile) : List Layout → Forest → Prop
  | [], f => f = []
  | l :: ls, f => ∃ t rest, f = t :: rest ∧ l.Mirrors source t ∧ MirrorsAll source ls rest
end

variable {source : SourceFile} {l : Layout} {t : Tree} {id : NodeId} {parameters : List String}

theorem Mirrors.isOriginOf (h : l.Mirrors source t) : l.IsOriginOf source t := by
  cases l <;> rw [Mirrors] at h <;> exact h.1

/-- A changed node still comes from its layout. -/
theorem IsOriginOf.of_dirty {u : Tree} (h : l.IsOriginOf source t)
    (horigin : u.core.origin = t.core.origin) (hdirty : u.core.dirty = true) :
    l.IsOriginOf source u :=
  ⟨horigin ▸ h.parsed, horigin ▸ h.shows, fun hclean => by simp [hdirty] at hclean⟩

mutual
/-- New parameters leave a tree a mirror of its layout. -/
theorem Mirrors.touch {source : SourceFile} {id : NodeId} {parameters : List String}
    (hplain : ∀ p ∈ parameters, isPlainParameter p = true) (l : Layout) {t : Tree}
    (h : l.Mirrors source t) :
    l.Mirrors source (t.touch id (Tree.mapStatement ({ · with parameters }))) := by
  have horigin := h.isOriginOf
  match l with
  | .comment gap text =>
    rw [Mirrors] at h ⊢
    obtain ⟨core, rfl⟩ := h.2
    rw [Tree.touch]
    split
    · exact ⟨horigin.of_dirty rfl rfl, _, rfl⟩
    · exact h
  | .directive gap name arguments =>
    rw [Mirrors] at h ⊢
    obtain ⟨core, statement, rfl, hname, -⟩ := h.2
    rw [Tree.touch]
    split
    · exact ⟨horigin.of_dirty rfl rfl, _, _, rfl, hname, .inr hplain⟩
    · exact h
  | .block gap name arguments inside trailing closing blanks =>
    rw [Mirrors] at h ⊢
    obtain ⟨core, statement, children, rfl, hname, hstatement, hinside⟩ := h.2
    rw [Tree.touch]
    split
    · exact ⟨horigin.of_dirty rfl rfl, _, _, _, rfl, hname, .inr hplain, hinside⟩
    · split
      · exact ⟨horigin.of_dirty rfl rfl, _, _, _, rfl, hname, hstatement,
          MirrorsAll.touch hplain inside hinside⟩
      · exact h

theorem MirrorsAll.touch {source : SourceFile} {id : NodeId} {parameters : List String}
    (hplain : ∀ p ∈ parameters, isPlainParameter p = true) (ls : List Layout) {f : Forest}
    (h : MirrorsAll source ls f) :
    MirrorsAll source ls (Forest.touch id (Tree.mapStatement ({ · with parameters })) f) := by
  match ls with
  | [] =>
    rw [MirrorsAll] at h ⊢
    rw [h, Forest.touch]
  | l :: ls =>
    rw [MirrorsAll] at h ⊢
    obtain ⟨t, rest, rfl, ht, hrest⟩ := h
    rw [Forest.touch]
    exact ⟨_, _, rfl, Mirrors.touch hplain l ht, MirrorsAll.touch hplain ls hrest⟩
end

mutual
/-- A tree that was just opened mirrors what was read. -/
theorem Shows.mirrors {source : SourceFile} (k : Kinship) (ancestor next : NodeId) (l : Layout)
    {f : Fragment} (h : l.Shows source f) :
    ∃ t, (Tree.ofFragment k ancestor next f).1 = some t ∧ l.Mirrors source t ∧
      t.shape = l.shape := by
  have hshows := h
  obtain ⟨file, kind, span, leading, header, trailingSpan, footer, children⟩ := f
  match l with
  | .comment gap text =>
    rw [Shows] at h
    obtain rfl : kind = .comment (commentText text) := h.1
    refine ⟨_, rfl, ?_, by rw [Tree.shape, shape]⟩
    rw [Mirrors]
    exact ⟨⟨rfl, hshows, fun _ => by rw [Tree.shape, shape]⟩, _, rfl⟩
  | .directive gap name arguments =>
    rw [Shows] at h
    obtain rfl : kind = .directive name _ := h.1
    refine ⟨_, rfl, ?_, by rw [Tree.shape, shape]⟩
    rw [Mirrors]
    refine ⟨⟨rfl, hshows, fun _ => by rw [Tree.shape, shape]⟩, _, _, rfl, rfl, .inl ?_⟩
    exact (keeps_iff rfl).2 rfl
  | .block gap name arguments inside trailing closing blanks =>
    rw [Shows] at h
    obtain rfl : kind = .block name _ := h.1
    obtain ⟨hinside, hshapes⟩ := ShowsAll.mirrors k next (next + 1) inside h.2.1
    have hshape : Tree.shape (.block (k.core next ancestor
        ⟨file, .block name (tagArguments arguments), span, leading, header, trailingSpan, footer,
          children⟩)
        ⟨name, tagArguments arguments, none⟩
        (Forest.ofFragments k next (next + 1) children).1) =
        shape (.block gap name arguments inside trailing closing blanks) := by
      rw [Tree.shape, shape, hshapes]
    refine ⟨_, rfl, ?_, hshape⟩
    rw [Mirrors]
    refine ⟨⟨rfl, hshows, fun _ => hshape⟩, _, _, _, rfl, rfl, .inl ?_, hinside⟩
    exact (keeps_iff rfl).2 rfl

theorem ShowsAll.mirrors {source : SourceFile} (k : Kinship) (ancestor next : NodeId)
    (ls : List Layout) {fs : List Fragment} (h : ShowsAll source ls fs) :
    MirrorsAll source ls (Forest.ofFragments k ancestor next fs).1 ∧
      Forest.shapes (Forest.ofFragments k ancestor next fs).1 = shapes ls := by
  match ls with
  | [] =>
    rw [ShowsAll] at h
    subst h
    exact ⟨rfl, rfl⟩
  | l :: ls =>
    rw [ShowsAll] at h
    obtain ⟨f, rest, rfl, hf, hrest⟩ := h
    obtain ⟨t, ht, hmirrors, hshape⟩ := Shows.mirrors k ancestor next l hf
    obtain ⟨hmirrors', hshapes⟩ := ShowsAll.mirrors k ancestor
      (Tree.ofFragment k ancestor next f).2 ls hrest
    rw [Forest.ofFragments_cons, ht, Option.toList_some, List.singleton_append, MirrorsAll, shapes,
      Forest.shapes, hshape, hshapes]
    exact ⟨⟨t, _, rfl, hmirrors, hmirrors'⟩, rfl⟩
end

/-! ## What is rendered -/

/-- Another layout of the same kind after the same gap, with the text and the shape of a node. It
ends before whatever the first layout ended before, except that a directive may need a gap. -/
structure Renews (l : Layout) (t : Tree) (text : String) (l' : Layout) : Prop where
  text_eq : text = String.ofList (textOf l'.own)
  shape_eq : l'.shape = t.shape
  gap_eq : l'.gap = l.gap
  isDirective_eq : l'.isDirective = l.isDirective
  grammatical : l'.Grammatical
  written : Written l'.own
  ends : ∀ y : Chunk, y.IsLexical → (l.isDirective = true → y.isGap = true) →
    (∀ x ∈ l.own.getLast?, x.meets y = true) → ∀ x ∈ l'.own.getLast?, x.meets y = true

theorem Renews.refl (hl : l.Grammatical) (hw : Written l.own) {text : String}
    (htext : text = String.ofList (textOf l.own)) (hshape : t.shape = l.shape) :
    l.Renews t text l :=
  ⟨htext, hshape.symm, rfl, rfl, hl, hw, fun _ _ _ h => h⟩

/-- Where a directive is not the next one's neighbour on the same line, a line break may follow. -/
theorem meets_newline {m : Layout} {ls : List Layout} {last : Bool} {trailing : List Chunk}
    (hls : GrammaticalAll last trailing (l :: m :: ls)) (hlex : ∀ k ∈ m.gap, k.IsLexical)
    (hopen : '\n' ∉ textOf m.gap) : ∀ x ∈ l.own.getLast?, x.meets (.newline ['\n']) = true := by
  intro x hx
  cases l with
  | comment gap text =>
    obtain rfl : Chunk.comment text = x := by simpa [own] using hx
    rfl
  | directive gap name arguments =>
    -- the gap after a directive has a line break, and its text would have one too
    rcases hls.2.1 rfl with hbreak | ⟨-, hnil⟩
    · exact absurd (mem_textOf_of_breaksLine hbreak hlex) hopen
    · simp at hnil
  | block gap name arguments inside trailing closing blanks =>
    obtain rfl : Chunk.closeTag closing blanks = x := by
      simpa [own, List.getLast?_append] using hx
    rfl

/-- What comes after a statement is as before, or a line break where the line had gone on. -/
theorem meets_head {ls ls' : List Layout} {last : Bool} {trailing rest : List Chunk} {y : Chunk}
    (hls : GrammaticalAll last trailing (l :: ls)) (hrest : last = true → rest = [])
    (hw : Written (l.own ++ (ownAll ls ++ (trailing ++ rest)))) (hnil : ls = [] → ls' = [])
    (hcons : ∀ m ms, ls = m :: ms → ∃ m' ms', ls' = m' :: ms' ∧
      m'.gap = renewedGap .midLine m.gap)
    (hy : y ∈ (ownAll ls' ++ (trailing ++ rest)).head?) :
    (l.isDirective = true → y.isGap = true) ∧ ∀ x ∈ l.own.getLast?, x.meets y = true := by
  obtain ⟨-, hlater, hseam⟩ := Written.append_iff.1 hw
  cases ls with
  | nil =>
    rw [hnil rfl] at hy
    refine ⟨fun hdirective => ?_, fun x hx => hseam x hx y hy⟩
    have htrailing : trailing.all Chunk.isGap = true := hls.2.2
    -- only at the end of a file may a directive have no gap after it
    cases trailing with
    | nil =>
      rcases hls.2.1 hdirective with hbreak | ⟨hlast, -⟩
      · simp [nextGap, breaksLine] at hbreak
      · simp [hrest hlast] at hy
    | cons z trailing =>
      obtain rfl : z = y := by simpa using hy
      exact List.all_eq_true.1 htrailing z (by simp)
  | cons m ms =>
    obtain ⟨m', ms', rfl, hm'⟩ := hcons m ms rfl
    have hlex : ∀ k ∈ m.gap, k.IsLexical := fun k hk => hlater.isLexical k (by simp [hk])
    rw [ownAll_cons, hm'] at hy
    -- a gap with a line break is kept; any other one gets a line break in front
    by_cases hlf : '\n' ∈ textOf m.gap
    · rw [renewedGap, if_neg (by simp [hlf])] at hy
      cases hgap : m.gap with
      | nil => simp [hgap] at hlf
      | cons z gap =>
        obtain rfl : z = y := by simpa [hgap] using hy
        refine ⟨fun _ => ?_, fun x hx => hseam x hx z (by simp [hgap])⟩
        exact List.all_eq_true.1 hls.2.2.1.all_isGap z (by simp [hgap])
    · rw [renewedGap, if_pos (by simp [hlf])] at hy
      obtain rfl : Chunk.newline ['\n'] = y := by simpa using hy
      exact ⟨fun _ => rfl, meets_newline hls hlex hlf⟩

section

variable {gap arguments trailing : List Chunk} {name : String} {core : Core} {statement : Statement}

/-- A directive of a mirror is copied when it keeps its arguments, or written anew in its place. -/
theorem Renews.directive
    (horigin : (Layout.directive gap name arguments).IsOriginOf source (.directive core statement))
    (hname : statement.name = name) (hplain : statement.IsPlain core)
    (hl : (Layout.directive gap name arguments).Grammatical)
    (hw : Written (Layout.directive gap name arguments).own)
    (hends : (Tree.directive core statement).endsPlainly = true) (depth : Nat) (before : Ending) :
    ∃ l', (Layout.directive gap name arguments).Renews (.directive core statement)
      ((Tree.directive core statement).renderAfter depth before) l' := by
  have hshows : Shows source _ core.origin.fragment := horigin.shows
  have htext := hshows.directive_eq hname depth before
  have hgather := hshows.gatherArguments_renewed statement horigin.parsed
  by_cases hkeeps : core.keeps statement.parameters = true
  · rw [renewedArguments, if_pos hkeeps] at htext hgather
    refine ⟨_, Renews.refl hl hw ?_ ?_⟩
    · rw [own, ← htext, String.ofList_toList]
    · rw [Tree.shape, shape, hname, hgather]
  · rw [renewedArguments, if_neg hkeeps] at htext hgather
    have hps := hplain.resolve_left hkeeps
    have hword : (Chunk.word name).IsLexical := hw.isLexical _ (by simp [own])
    have hline : statement.line.toList.getLast? ≠ some '\\' := by
      simpa [Tree.endsPlainly, hkeeps] using hends
    refine ⟨.directive gap name (parameterChunks statement.parameters),
      ⟨?_, ?_, rfl, rfl, ?_, ?_, ?_⟩⟩
    · rw [own, ← htext, String.ofList_toList]
    · rw [Tree.shape, shape, hname, hgather]
    · exact ⟨hl.1, all_isArgument_parameterChunks _, token_getLast?_parameterChunks _⟩
    · rw [own]
      exact written_directiveLine hword hps
    · intro y hy hgap _
      rw [own]
      subst hname
      exact directiveLine_meets_gap statement.standing hline hword hps hy (hgap rfl)

/-- A changed block of a mirror is written anew around its inside. -/
theorem Renews.block {inside inside' : List Layout} {closing : String} {blanks : List Char}
    {children : Forest} {depth : Nat} {before : Ending}
    (horigin : (Layout.block gap name arguments inside trailing closing blanks).IsOriginOf source
      (.block core statement children))
    (hname : statement.name = name) (hplain : statement.IsPlain core) (hdirty : core.dirty = true)
    (hl : (Layout.block gap name arguments inside trailing closing blanks).Grammatical)
    (htag : Written (openTagChunks name arguments))
    (htext : Forest.renderAfter (depth + 1) .midLine children =
      String.ofList (textOf (ownAll inside')))
    (hshapes : shapes inside' = Forest.shapes children)
    (hinside : GrammaticalAll false trailing inside')
    (hbody : Written (ownAll inside' ++ (trailing ++ [.closeTag closing blanks]))) :
    (Layout.block gap name arguments inside trailing closing blanks).Renews
      (.block core statement children)
      ((Tree.block core statement children).renderAfter depth before)
      (.block gap name (renewedArguments core statement arguments) inside' trailing closing
        blanks) := by
  have hparsed : core.origin.synthetic = false := horigin.parsed
  have hshows : Shows source _ core.origin.fragment := horigin.shows
  have htagArguments := hshows.tagArguments_renewed statement hparsed
  obtain ⟨hgap, harguments, -, hsame⟩ := hl
  refine ⟨?_, ?_, rfl, rfl, ⟨hgap, all_isTagArgument_renewed harguments, hinside, hsame⟩, ?_, ?_⟩
  · rw [hshows.block_eq hname hparsed hdirty, htext, own]
    simp [String.ofList_append, String.append_assoc]
  · rw [Tree.shape, shape, htagArguments, hshapes, hname]
  · rw [own, Written.append_iff]
    refine ⟨hplain.written_openTag htag, hbody, fun x hx y _ => ?_⟩
    obtain rfl : Chunk.tagEnd = x := by simpa [getLast?_openTagChunks] using hx
    rfl
  · intro y _ _ _ x hx
    obtain rfl : Chunk.closeTag closing blanks = x := by
      simpa [own, List.getLast?_append] using hx
    rfl

end

mutual
/-- A node of a mirror is rendered to a renewed layout. -/
theorem Mirrors.relaid {source : SourceFile} (depth : Nat) (before : Ending) (l : Layout) {t : Tree}
    (h : l.Mirrors source t) (hl : l.Grammatical) (hw : Written l.own)
    (hends : ∀ u ∈ t.nodes, u.endsPlainly = true) :
    ∃ l', l.Renews t (t.renderAfter depth before) l' := by
  have horigin := h.isOriginOf
  match l with
  | .comment gap text =>
    rw [Mirrors] at h
    obtain ⟨core, rfl⟩ := h.2
    have hparsed : core.origin.synthetic = false := horigin.parsed
    refine ⟨_, Renews.refl hl hw ?_ (by rw [Tree.shape, shape])⟩
    rw [Tree.renderAfter, hparsed, if_neg (by simp)]
    exact horigin.shows.text
  | .directive gap name arguments =>
    rw [Mirrors] at h
    obtain ⟨core, statement, rfl, hname, hplain⟩ := h.2
    exact Renews.directive horigin hname hplain hl hw (hends _ (Tree.self_mem_nodes _)) ..
  | .block gap name arguments inside trailing closing blanks =>
    rw [Mirrors] at h
    obtain ⟨core, statement, children, rfl, hname, hplain, hinside⟩ := h.2
    -- a block without changes is copied; of any other one the inside is relaid
    by_cases hdirty : core.dirty = true
    · rw [own] at hw
      obtain ⟨htag, hbody, -⟩ := Written.append_iff.1 hw
      obtain ⟨inside', htext, hshapes, hgrammatical, hbody', -⟩ :=
        MirrorsAll.relaid (depth + 1) .midLine inside hinside hl.2.2.1
          (by simp) hbody fun u hu => hends u (Tree.mem_nodes_of_mem_children hu)
      exact ⟨_, Renews.block horigin hname hplain hdirty hl htag htext hshapes hgrammatical hbody'⟩
    · have hclean : core.dirty = false := by simpa using hdirty
      refine ⟨_, Renews.refl hl hw ?_ (horigin.shape_eq hclean)⟩
      exact horigin.shows.block_eq_of_clean horigin.parsed hclean ..

theorem MirrorsAll.relaid {source : SourceFile} (depth : Nat) (before : Ending) {last : Bool}
    {trailing rest : List Chunk} (ls : List Layout) {f : Forest} (h : MirrorsAll source ls f)
    (hls : GrammaticalAll last trailing ls) (hrest : last = true → rest = [])
    (hw : Written (ownAll ls ++ (trailing ++ rest)))
    (hends : ∀ u ∈ Forest.nodes f, u.endsPlainly = true) :
    ∃ ls', Forest.renderAfter depth before f = String.ofList (textOf (ownAll ls')) ∧
      shapes ls' = Forest.shapes f ∧ GrammaticalAll last trailing ls' ∧
      Written (ownAll ls' ++ (trailing ++ rest)) ∧ (ls = [] → ls' = []) ∧
      ∀ m ms, ls = m :: ms → ∃ m' ms', ls' = m' :: ms' ∧ m'.gap = renewedGap before m.gap := by
  match ls with
  | [] =>
    rw [MirrorsAll] at h
    subst h
    exact ⟨[], rfl, rfl, hls, hw, fun _ => rfl, by simp⟩
  | l :: ls =>
    rw [MirrorsAll] at h
    obtain ⟨t, f, rfl, ht, hf⟩ := h
    rw [ownAll_cons, List.append_assoc, List.append_assoc] at hw
    obtain ⟨hgap, hown, -⟩ := Written.append_iff.1 hw
    obtain ⟨hl, hlater, hseam⟩ := Written.append_iff.1 hown
    have horigin := ht.isOriginOf
    -- the gap is copied too, with a line break in front where the line would go on
    have hsep : separator depth before t.core.origin =
        String.ofList (textOf (renewedGap before l.gap)) := by
      rw [← separator_eq horigin.shows depth before, ← horigin.parsed]
    obtain ⟨l', hnew⟩ := Mirrors.relaid depth
      (before.after (separator depth before t.core.origin)) l ht hls.1 hl
      fun u hu => hends u (by simp [hu])
    obtain ⟨ls', htext, hshapes, hgrammatical, hwritten, hnil, hcons⟩ :=
      MirrorsAll.relaid depth .midLine ls hf hls.2.2 hrest hlater
        fun u hu => hends u (by simp [hu])
    have hall := hls.1.all_isGap
    refine ⟨l'.withGap (renewedGap before l.gap) :: ls', ?_, ?_, ⟨?_, ?_, hgrammatical⟩, ?_,
      by simp, ?_⟩
    · -- every statement ends in the middle of a line, so the next gap is renewed for that
      have hafter : (before.after (separator depth before t.core.origin)).after
          (t.renderAfter depth (before.after (separator depth before t.core.origin))) =
          .midLine := by
        rw [hnew.text_eq]
        exact hnew.grammatical.after_own hnew.written.isLexical _
      rw [Forest.renderAfter, hafter, htext, hnew.text_eq, hsep, ownAll_cons]
      simp [String.ofList_append, String.append_assoc]
    · rw [shapes, Forest.shapes, withGap_shape, hnew.shape_eq, hshapes]
    · exact hnew.grammatical.withGap (renewedGap_all_isGap hall before)
    · rw [withGap_isDirective, hnew.isDirective_eq]
      intro hdirective
      rcases hls.2.1 hdirective with hbreak | ⟨hlast, rfl⟩
      · left
        cases ls with
        | nil => rwa [hnil rfl]
        | cons m ms =>
          obtain ⟨m', ms', rfl, hm'⟩ := hcons m ms rfl
          rw [nextGap, hm']
          exact breaksLine_renewedGap hbreak
      · exact .inr ⟨hlast, hnil rfl⟩
    · rw [ownAll_cons, withGap_gap, withGap_own, List.append_assoc, List.append_assoc]
      refine written_renewedGap hgap hall (Written.append_iff.2 ⟨hnew.written, hwritten, ?_⟩) before
      -- the seam to what follows holds as before, or there is a line break now
      intro x hx y hy
      obtain ⟨hgap', hmeets⟩ := meets_head hls hrest hown hnil hcons hy
      exact hnew.ends y (hwritten.isLexical y (List.mem_of_mem_head? hy)) hgap' hmeets x hx
    · intro m ms hm
      obtain ⟨rfl, rfl⟩ := List.cons.inj hm
      exact ⟨_, _, rfl, withGap_gap⟩
end

mutual
/-- Apart from parameters, a mirror says what its layout says. -/
theorem Mirrors.outline {source : SourceFile} (l : Layout) {t : Tree} (h : l.Mirrors source t) :
    t.shape.outline = l.shape.outline := by
  match l with
  | .comment gap text =>
    rw [Mirrors] at h
    obtain ⟨core, rfl⟩ := h.2
    rw [Tree.shape, shape]
  | .directive gap name arguments =>
    rw [Mirrors] at h
    obtain ⟨core, statement, rfl, hname, -⟩ := h.2
    rw [Tree.shape, shape, Shape.outline, Shape.outline, hname]
  | .block gap name arguments inside trailing closing blanks =>
    rw [Mirrors] at h
    obtain ⟨core, statement, children, rfl, hname, -, hinside⟩ := h.2
    rw [Tree.shape, shape, Shape.outline, Shape.outline, hname, MirrorsAll.outlines inside hinside]

theorem MirrorsAll.outlines {source : SourceFile} (ls : List Layout) {f : Forest}
    (h : MirrorsAll source ls f) :
    Shape.outlines (Forest.shapes f) = Shape.outlines (shapes ls) := by
  match ls with
  | [] =>
    rw [MirrorsAll] at h
    rw [h, Forest.shapes, shapes]
  | l :: ls =>
    rw [MirrorsAll] at h
    obtain ⟨t, rest, rfl, ht, hrest⟩ := h
    rw [Forest.shapes, shapes, Shape.outlines, Shape.outlines, Mirrors.outline l ht,
      MirrorsAll.outlines ls hrest]
end

end Layout

/-! ## Whole documents -/

/-- The tree is that of a document, whose nodes come from the page one by one. -/
def Page.MirroredBy (source : SourceFile) (document : Fragment) (p : Page) (t : Tree) : Prop :=
  ∃ core children standing, t = .block core ⟨"", [], standing⟩ children ∧
    core.origin = .parsed document ∧ Layout.MirrorsAll source p.statements children

/-- The edit gives a node plain parameters, or only looks. -/
def Edit.setsPlainParameters : Edit → Bool
  | .setParameters _ parameters => parameters.all isPlainParameter
  | .look _ => true
  | _ => false

variable {source : SourceFile} {document : Fragment} {p : Page} {policy : Policy}

theorem Page.Shows.mirroredBy_opened (h : p.Shows source document) (policy : Policy) :
    p.MirroredBy source document (Sheet.opened document policy).tree :=
  ⟨_, _, none, rfl, rfl, (Layout.ShowsAll.mirrors _ _ _ _ h.children).1⟩

/-- Setting plain parameters leaves the tree of a document a mirror of its page. -/
theorem Page.MirroredBy.edit {s s' : Sheet} {e : Edit} (h : p.MirroredBy source document s.tree)
    (he : e.setsPlainParameters = true) (hedit : s.edit e = some s') :
    p.MirroredBy source document s'.tree := by
  obtain ⟨blocks, rfl, rfl⟩ | ⟨block, content, position, b, rfl, -⟩ | ⟨block, child, b, rfl, -⟩ |
    ⟨node, parameters, t, rfl, ht, hname, rfl⟩ := Sheet.edit_cases hedit
  · exact h
  · simp [Edit.setsPlainParameters] at he
  · simp [Edit.setsPlainParameters] at he
  · have hplain : ∀ q ∈ parameters, isPlainParameter q = true := List.all_eq_true.1 he
    obtain ⟨core, children, standing, htree, horigin, hmirrors⟩ := h
    have hroot := Sheet.root_id_ne (by rw [htree]; rfl) ht hname
    simp only [htree] at hroot ⊢
    rw [Tree.touch, if_neg (by simpa [Tree.id, Tree.core] using hroot)]
    split
    · exact ⟨_, _, _, rfl, horigin, Layout.MirrorsAll.touch hplain _ hmirrors⟩
    · exact ⟨_, _, _, rfl, horigin, hmirrors⟩

theorem Page.MirroredBy.run {edits : List Edit} {s s' : Sheet}
    (h : p.MirroredBy source document s.tree)
    (hedits : ∀ e ∈ edits, e.setsPlainParameters = true)
    (hrun : edits.foldlM Sheet.edit s = some s') : p.MirroredBy source document s'.tree :=
  Sheet.kept_run (P := fun s => p.MirroredBy source document s.tree)
    (fun e he _ _ hm hedit => hm.edit (hedits e he) hedit) h hrun

/-- A mirror of a legible page is rendered to a text that is read back as it is. -/
theorem Page.MirroredBy.read_render (hp : p.Legible) (hshows : p.Shows source document) {t : Tree}
    (h : p.MirroredBy source document t) (hends : ∀ u ∈ t.nodes, u.endsPlainly = true)
    (path : Path) :
    ∃ document', Fragment.read ⟨path, t.renderAfter 0 .nothing⟩ = .ok document' ∧
      document'.shape = t.shape := by
  obtain ⟨core, children, standing, rfl, horigin, hmirrors⟩ := h
  have hw := hp.written
  rw [Page.chunks, ← List.append_nil p.trailing] at hw
  obtain ⟨ls, htext, hshapes, hgrammatical, hwritten, -⟩ :=
    Layout.MirrorsAll.relaid 0 .nothing _ hmirrors hp.grammatical (by simp)
      hw fun u hu => hends u (Tree.mem_nodes_of_mem_children hu)
  have hlegible : Page.Legible ⟨ls, p.trailing⟩ :=
    ⟨by simpa [Page.chunks] using hwritten, hgrammatical⟩
  refine hshows.exists_read_render horigin hlegible ?_ hshapes path
  rw [htext, String.toList_ofList, Page.chunks, textOf_append]

theorem Tree.endsPlainly_forget (t : Tree) : t.forget.endsPlainly = t.endsPlainly := by
  cases t <;> simp [Tree.forget, Tree.mapStatements, Tree.endsPlainly, Statement.line]

theorem Tree.forall_endsPlainly_forget {t : Tree} (h : ∀ u ∈ t.nodes, u.endsPlainly = true) :
    ∀ u ∈ t.forget.nodes, u.endsPlainly = true := by
  intro u hu
  rw [Tree.nodes_forget] at hu
  obtain ⟨v, hv, rfl⟩ := List.mem_map.1 hu
  rw [Tree.endsPlainly_forget]
  exact h v hv

/-- Whatever parameters of a file are replaced by plain ones, the rendered file can be read and says
what the tree says: what the file said, with these parameters. -/
theorem read_render_of_setParameters {edits : List Edit} {r : Tree} {w : Workspace}
    (h : editFile source policy edits = some (r, w))
    (hedits : ∀ e ∈ edits, e.setsPlainParameters = true)
    (hends : ∀ t ∈ r.nodes, t.endsPlainly = true) (path : Path) :
    ∃ document document', Fragment.read source = .ok document ∧
      Fragment.read ⟨path, w.forest.render [r]⟩ = .ok document' ∧
      document'.shape = r.shape ∧ document'.shape.outline = document.shape.outline := by
  obtain ⟨document, s, hread, hrun, -, rfl⟩ := exists_sheet_of_editFile h
  obtain ⟨p, hp, -, hshows⟩ := Fragment.exists_page_of_read hread
  have hmirrored := (hshows.mirroredBy_opened policy).run hedits hrun
  obtain ⟨document', hread', hshape⟩ := hmirrored.read_render hp hshows
    (Tree.forall_endsPlainly_forget hends) path
  obtain ⟨core, children, standing, hr, horigin, hmirrors⟩ := hmirrored
  simp only at hr hread' hshape
  have hrender := Forest.render_of_forget w.forest hr horigin hshows.kind_eq
  refine ⟨document, document', hread, by rwa [hrender], by rw [hshape, Tree.shape_forget], ?_⟩
  rw [hshape, hr, Tree.shape, hshows.shape, Shape.outline, Shape.outline, hmirrors.outlines]

/-- A joined line, two tags on one line and a comment after a tag survive new parameters. -/
theorem read_render_of_setParameters_crowded :
    ∃ r w document document',
      editFile ⟨⟨"site.conf"⟩, "Listen 80 \\\n 443\n<A x><B>\nC \"q\"\n</B> # d\n</A>\n"⟩
        Policy.default [.setParameters 1 ["8080"], .setParameters 2 ["y", "\"a b\""],
          .setParameters 4 []] = some (r, w) ∧
      Fragment.read ⟨⟨"site.conf"⟩, "Listen 80 \\\n 443\n<A x><B>\nC \"q\"\n</B> # d\n</A>\n"⟩ =
        .ok document ∧
      Fragment.read ⟨⟨"site.conf"⟩, w.forest.render [r]⟩ = .ok document' ∧
      document'.shape = r.shape ∧ document'.shape.outline = document.shape.outline := by
  have hrun : ((editFile
      ⟨⟨"site.conf"⟩, "Listen 80 \\\n 443\n<A x><B>\nC \"q\"\n</B> # d\n</A>\n"⟩
      Policy.default [.setParameters 1 ["8080"], .setParameters 2 ["y", "\"a b\""],
        .setParameters 4 []]).any fun edited => edited.1.nodes.all Tree.endsPlainly) = true := by
    decide +kernel
  obtain ⟨⟨r, w⟩, h, hends⟩ := (Option.any_eq_true ..).1 hrun
  obtain ⟨document, document', hread⟩ := read_render_of_setParameters h (by decide)
    (List.all_eq_true.1 hends) ⟨"site.conf"⟩
  exact ⟨r, w, document, document', h, hread⟩

end HttpdConf
