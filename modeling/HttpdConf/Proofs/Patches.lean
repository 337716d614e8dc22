import HttpdConf.Proofs.Rendering
import Mathlib.Algebra.GroupWithZero.Nat

/-!
# Rendering as patching

When only parameters of a document are changed, rendering changes few places of the file: a
statement with other parameters is written anew, and a node that stood on the line of what comes
before it gets a line of its own where the nodes around it are rendered one by one. All other bytes
are those of the file.

## Main definitions

* `Patch`, `SourceFile.patch?`: the text of a file with parts of it replaced
* `Tree.patches`, `Tree.documentPatches`: where a tree differs from the file it was read from
* `Tree.StandsFor`: a tree that comes from a fragment, up to parameters

## Main results

* `Layout.patchBetween?_place`: a node is rendered to its part of the file with its patches
* `patch?_documentPatches`: a document is rendered to its file with its patches
-/

namespace HttpdConf

/-- A text that is put in the place of a span. -/
structure Patch where
  span : Span
  text : String
  deriving DecidableEq, Repr

/-! ## Patched texts -/

namespace SourceFile

/-- The text between two offsets with some parts replaced. There is none unless the parts stand in
order between the offsets and split no character. -/
def patchBetween? (source : SourceFile) (start stop : Nat) : List Patch → Option (List Char)
  | [] => Text.slice? source.text.toList start stop
  | p :: rest => do
    let before ← Text.slice? source.text.toList start p.span.start
    let _ ← Text.slice? source.text.toList p.span.start p.span.stop
    let after ← patchBetween? source p.span.stop stop rest
    return before ++ p.text.toList ++ after

/-- The text of the file with some parts replaced. -/
def patch? (source : SourceFile) (patches : List Patch) : Option String :=
  (source.patchBetween? 0 source.length patches).map String.ofList

end SourceFile

theorem Text.eq_of_append_eq_append {as bs cs ds : List Char} (h : as ++ bs = cs ++ ds)
    (hlength : Text.byteLength as = Text.byteLength cs) : as = cs ∧ bs = ds := by
  have hdrop := Text.dropBytes?_append as bs
  rw [h, hlength, Text.dropBytes?_append] at hdrop
  obtain rfl := Option.some.inj hdrop
  exact ⟨List.append_cancel_right h, rfl⟩

/-- Slices that follow each other make up one slice. -/
theorem Text.slice?_trans {cs xs ys : List Char} {a b c : Nat} (hx : Text.slice? cs a b = some xs)
    (hy : Text.slice? cs b c = some ys) : Text.slice? cs a c = some (xs ++ ys) := by
  obtain ⟨before, after, hcs, rfl, rfl⟩ := Text.slice?_eq_some_iff.1 hx
  obtain ⟨before', after', hcs', hb, rfl⟩ := Text.slice?_eq_some_iff.1 hy
  rw [hcs, ← List.append_assoc] at hcs'
  obtain ⟨rfl, rfl⟩ := Text.eq_of_append_eq_append hcs' (by rw [hb, Text.byteLength_append])
  refine Text.slice?_eq_some_iff.2 ⟨before, after', by simp [hcs], rfl, ?_⟩
  simp [Nat.add_assoc]

variable {source : SourceFile} {a b c : Nat} {ps qs : List Patch} {s t : List Char}

namespace SourceFile

theorem patchBetween?_cons_eq_some_iff {p : Patch} :
    source.patchBetween? a b (p :: ps) = some s ↔ ∃ before mid after,
      Text.slice? source.text.toList a p.span.start = some before ∧
      Text.slice? source.text.toList p.span.start p.span.stop = some mid ∧
      source.patchBetween? p.span.stop b ps = some after ∧
      s = before ++ p.text.toList ++ after := by
  rw [patchBetween?]
  simp only [bind, Option.bind_eq_some_iff, pure, Option.some.injEq]
  constructor
  · rintro ⟨before, hbefore, mid, hmid, after, hafter, rfl⟩
    exact ⟨before, mid, after, hbefore, hmid, hafter, rfl⟩
  · rintro ⟨before, mid, after, hbefore, hmid, hafter, rfl⟩
    exact ⟨before, hbefore, mid, hmid, after, hafter, rfl⟩

/-- What is patched in two parts that follow each other is patched as a whole. -/
theorem patchBetween?_append (hs : source.patchBetween? a b ps = some s)
    (ht : source.patchBetween? b c qs = some t) :
    source.patchBetween? a c (ps ++ qs) = some (s ++ t) := by
  induction ps generalizing a s with
  | nil =>
    rw [patchBetween?] at hs
    rw [List.nil_append]
    cases qs with
    | nil => exact Text.slice?_trans hs ht
    | cons q qs =>
      obtain ⟨before, mid, after, hbefore, hmid, hafter, rfl⟩ :=
        patchBetween?_cons_eq_some_iff.1 ht
      exact patchBetween?_cons_eq_some_iff.2
        ⟨s ++ before, mid, after, Text.slice?_trans hs hbefore, hmid, hafter, by simp⟩
  | cons p ps ih =>
    obtain ⟨before, mid, after, hbefore, hmid, hafter, rfl⟩ := patchBetween?_cons_eq_some_iff.1 hs
    exact patchBetween?_cons_eq_some_iff.2
      ⟨before, mid, after ++ t, hbefore, hmid, ih hafter, by simp⟩

end SourceFile

namespace Span.Covers

variable {ks : List Chunk}

theorem slice? (h : Span.Covers source ⟨a, b⟩ ks) :
    Text.slice? source.text.toList a b = some (textOf ks) := by
  obtain ⟨before, after, htext, hspan⟩ := h
  obtain ⟨rfl, rfl⟩ := Span.mk.inj hspan
  rw [htext]
  exact Text.slice?_append ..

theorem slice?_start (h : Span.Covers source ⟨a, b⟩ ks) :
    Text.slice? source.text.toList a a = some [] := by
  obtain ⟨before, after, htext, hspan⟩ := h
  obtain ⟨rfl, rfl⟩ := Span.mk.inj hspan
  exact Text.slice?_eq_some_iff.2 ⟨before, _, htext, rfl, by simp⟩

theorem patchBetween?_nil (h : Span.Covers source ⟨a, b⟩ ks) :
    source.patchBetween? a b [] = some (textOf ks) := h.slice?

/-- A part that is replaced as a whole. -/
theorem patchBetween?_whole (h : Span.Covers source ⟨a, b⟩ ks) (text : String) :
    source.patchBetween? a b [⟨⟨a, b⟩, text⟩] = some text.toList :=
  SourceFile.patchBetween?_cons_eq_some_iff.2
    ⟨[], textOf ks, [], h.slice?_start, h.slice?, h.emptyAt.slice?, by simp⟩

/-- A part that gets a text in front. -/
theorem patchBetween?_front (h : Span.Covers source ⟨a, b⟩ ks) (text : String) :
    source.patchBetween? a b [⟨.emptyAt a, text⟩] = some (text.toList ++ textOf ks) :=
  SourceFile.patchBetween?_cons_eq_some_iff.2
    ⟨[], [], textOf ks, h.slice?_start, h.slice?_start, h.slice?, by simp⟩

end Span.Covers

/-! ## Where a tree differs from its file -/

/-- Whether the gap that was read before the node has a line break. -/
def Tree.startsLine (t : Tree) : Bool :=
  let fragment := t.core.origin.fragment
  (fragment.slice fragment.leading).toList.contains '\n'

/-- The line break before a node whose gap has none. -/
def Tree.breakPatches (t : Tree) : List Patch :=
  if t.startsLine then [] else [⟨.emptyAt t.core.origin.fragment.leading.start, "\n"⟩]

/-- The new header of a node whose parameters are not those that were read. -/
def Core.headerPatches (core : Core) (parameters : List String) (text : String) : List Patch :=
  if core.origin.fragment.arguments? = some parameters then []
  else [⟨core.origin.fragment.header, text⟩]

mutual
/-- The statements of a tree with other parameters are written anew, and nodes in a dirty block get
lines of their own. -/
def Tree.patches : Tree → List Patch
  | .comment _ _ => []
  | .directive core statement => core.headerPatches statement.parameters statement.line
  | .block core statement children =>
    core.headerPatches statement.parameters ("<" ++ statement.line ++ ">") ++
      Forest.patches core.dirty children

def Forest.patches (breaks : Bool) : Forest → List Patch
  | [] => []
  | t :: rest =>
    (if breaks then t.breakPatches else []) ++ t.patches ++ Forest.patches breaks rest
end

/-- The patches of a whole document. Its first node needs no line break. -/
def Tree.documentPatches (root : Tree) : List Patch :=
  match root.children with
  | [] => []
  | first :: rest => first.patches ++ Forest.patches true rest

/-! ## Trees that stand for fragments -/

mutual
/-- The node comes from the fragment, and so do the nodes inside, one by one. Only parameters may
differ, and a block has nothing to patch as long as it has no changes. -/
def Tree.StandsFor : Tree → Fragment → Prop
  | .comment core text, f => core.origin = .parsed f ∧ f.kind = .comment text
  | .directive core statement, f =>
    core.origin = .parsed f ∧ ∃ arguments, f.kind = .directive statement.name arguments
  | .block core statement children, f =>
    core.origin = .parsed f ∧ (∃ arguments, f.kind = .block statement.name arguments) ∧
      (core.dirty = false → (Tree.block core statement children).patches = []) ∧
      Forest.StandsFor children f.children

def Forest.StandsFor : Forest → List Fragment → Prop
  | [], fs => fs = []
  | t :: rest, fs => ∃ f fs', fs = f :: fs' ∧ t.StandsFor f ∧ Forest.StandsFor rest fs'
end

theorem Tree.StandsFor.origin {t : Tree} {f : Fragment} (h : t.StandsFor f) :
    t.core.origin = .parsed f := by
  cases t <;> rw [Tree.StandsFor] at h <;> exact h.1

mutual
/-- With other parameters a tree stands for the same fragment. -/
theorem Tree.StandsFor.touch {id : NodeId} {parameters : List String} (t : Tree) {f : Fragment}
    (h : t.StandsFor f) : (t.touch id (Tree.mapStatement ({ · with parameters }))).StandsFor f := by
  match t with
  | .comment core text =>
    rw [Tree.touch]
    split
    · rw [Tree.StandsFor] at h
      exact h
    · exact h
  | .directive core statement =>
    rw [Tree.touch]
    split
    · rw [Tree.StandsFor] at h
      exact h
    · exact h
  | .block core statement children =>
    rw [Tree.touch]
    split
    · rw [Tree.StandsFor] at h
      obtain ⟨horigin, hkind, -, hinside⟩ := h
      exact ⟨horigin, hkind, fun hclean => by simp [Core.touched] at hclean, hinside⟩
    · split
      · rw [Tree.StandsFor] at h
        obtain ⟨horigin, hkind, -, hinside⟩ := h
        exact ⟨horigin, hkind, fun hclean => by simp [Core.stirred] at hclean,
          Forest.StandsFor.touch children hinside⟩
      · exact h

theorem Forest.StandsFor.touch {id : NodeId} {parameters : List String} (f : Forest)
    {fs : List Fragment} (h : Forest.StandsFor f fs) :
    Forest.StandsFor (Forest.touch id (Tree.mapStatement ({ · with parameters })) f) fs := by
  match f with
  | [] => rwa [Forest.touch]
  | t :: f =>
    rw [Forest.StandsFor] at h
    obtain ⟨g, gs, rfl, ht, hf⟩ := h
    rw [Forest.touch, Forest.StandsFor]
    exact ⟨g, gs, rfl, Tree.StandsFor.touch t ht, Forest.StandsFor.touch f hf⟩
end

mutual
/-- What was read stands for its fragment, and has nothing to patch. -/
theorem Layout.Shows.standsFor {source : SourceFile} (k : Kinship) (ancestor next : NodeId)
    (l : Layout) {f : Fragment} (h : l.Shows source f) :
    ∃ t, (Tree.ofFragment k ancestor next f).1 = some t ∧ t.StandsFor f ∧ t.patches = [] := by
  obtain ⟨file, kind, span, leading, header, trailingSpan, footer, children⟩ := f
  match l with
  | .comment gap text =>
    rw [Layout.Shows] at h
    obtain rfl : kind = .comment (commentText text) := h.1
    exact ⟨_, rfl, ⟨rfl, rfl⟩, rfl⟩
  | .directive gap name arguments =>
    rw [Layout.Shows] at h
    obtain rfl : kind = .directive name _ := h.1
    exact ⟨_, rfl, ⟨rfl, _, rfl⟩, if_pos rfl⟩
  | .block gap name arguments inside trailing closing blanks =>
    rw [Layout.Shows] at h
    obtain rfl : kind = .block name _ := h.1
    obtain ⟨hinside, hpatches⟩ := Layout.ShowsAll.standsFor k next (next + 1) inside h.2.1
    have hnone : Forest.patches false (Forest.ofFragments k next (next + 1) children).1 = [] := by
      generalize (Forest.ofFragments k next (next + 1) children).1 = f at hpatches
      induction f with
      | nil => rw [Forest.patches]
      | cons t f ih =>
        rw [Forest.patches, hpatches t (by simp), ih fun u hu => hpatches u (by simp [hu])]
        rfl
    have hblock : (Tree.block (k.core next ancestor
        ⟨file, .block name (tagArguments arguments), span, leading, header, trailingSpan, footer,
          children⟩)
        ⟨name, tagArguments arguments, none⟩
        (Forest.ofFragments k next (next + 1) children).1).patches = [] := by
      rw [Tree.patches]
      exact List.append_eq_nil_iff.2 ⟨if_pos rfl, hnone⟩
    exact ⟨_, rfl, ⟨rfl, ⟨_, rfl⟩, fun _ => hblock, hinside⟩, hblock⟩

theorem Layout.ShowsAll.standsFor {source : SourceFile} (k : Kinship) (ancestor next : NodeId)
    (ls : List Layout) {fs : List Fragment} (h : Layout.ShowsAll source ls fs) :
    Forest.StandsFor (Forest.ofFragments k ancestor next fs).1 fs ∧
      ∀ t ∈ (Forest.ofFragments k ancestor next fs).1, t.patches = [] := by
  match ls with
  | [] =>
    rw [Layout.ShowsAll] at h
    subst h
    exact ⟨rfl, by simp [Forest.ofFragments]⟩
  | l :: ls =>
    rw [Layout.ShowsAll] at h
    obtain ⟨f, rest, rfl, hf, hrest⟩ := h
    obtain ⟨t, ht, hstands, hnone⟩ := Layout.Shows.standsFor k ancestor next l hf
    obtain ⟨hstands', hnone'⟩ := Layout.ShowsAll.standsFor k ancestor
      (Tree.ofFragment k ancestor next f).2 ls hrest
    rw [Forest.ofFragments_cons, ht, Option.toList_some, List.singleton_append, Forest.StandsFor]
    refine ⟨⟨f, rest, rfl, hstands, hstands'⟩, fun u hu => ?_⟩
    rcases List.mem_cons.1 hu with rfl | hu
    · exact hnone
    · exact hnone' u hu
end

/-! ## Rendered nodes -/

/-- A gap is rendered with its patch. -/
theorem Layout.Shows.patchBetween?_gap {l : Layout} {f : Fragment} (h : l.Shows source f)
    {t : Tree} (horigin : t.core.origin = .parsed f) (hspan : f.leading = ⟨a, b⟩)
    {before : Ending} (hbefore : before = .midLine ∨ '\n' ∈ textOf l.gap) (depth : Nat) :
    source.patchBetween? a b t.breakPatches =
      some (separator depth before t.core.origin).toList := by
  have hcovers : Span.Covers source ⟨a, b⟩ l.gap := by
    rw [← hspan]
    cases l <;> rw [Layout.Shows] at h
    · exact h.2.2.2.leading
    · exact h.2.2.2.leading
    · exact h.2.2.leading
  have hslice : f.slice ⟨a, b⟩ = String.ofList (textOf l.gap) := hspan ▸ h.leading_text
  rw [horigin, Origin.parsed, separator_eq h, String.toList_ofList, Tree.breakPatches,
    Tree.startsLine, horigin]
  simp only [Origin.parsed, hspan, hslice, String.toList_ofList, renewedGap]
  by_cases hlf : '\n' ∈ textOf l.gap
  · simpa [hlf, SourceFile.patchBetween?] using hcovers.slice?
  · have hmid := hbefore.resolve_right hlf
    simpa [hlf, hmid] using hcovers.patchBetween?_front "\n"

/-- An open tag is rendered with its patch. -/
theorem Layout.Shows.patchBetween?_header {gap arguments trailing : List Chunk}
    {name closing : String} {inside : List Layout} {blanks : List Char} {f : Fragment}
    (h : (Layout.block gap name arguments inside trailing closing blanks).Shows source f)
    {core : Core} {statement : Statement} (horigin : core.origin = .parsed f)
    (hname : statement.name = name) (hspan : f.header = ⟨a, b⟩) :
    source.patchBetween? a b
        (core.headerPatches statement.parameters ("<" ++ statement.line ++ ">")) =
      some (textOf (openTagChunks name (renewedArguments core statement arguments))) := by
  have hcovers : Span.Covers source ⟨a, b⟩ (openTagChunks name arguments) := by
    rw [← hspan]
    rw [Layout.Shows] at h
    exact h.2.2.header
  have hparsed : core.origin.synthetic = false := by rw [horigin]; rfl
  rw [Core.headerPatches, renewedArguments]
  by_cases hkeeps : core.keeps statement.parameters = true
  · rw [if_pos ((keeps_iff hparsed).1 hkeeps), if_pos hkeeps]
    exact hcovers.slice?
  · rw [if_neg fun heq => hkeeps ((keeps_iff hparsed).2 heq), if_neg hkeeps, horigin]
    subst hname
    rw [← textOf_tagLine _ _ statement.standing]
    simp only [Origin.parsed, hspan]
    exact hcovers.patchBetween?_whole _

/-- A tree that stands for a laid statement shows it. -/
theorem Tree.StandsFor.shows {offset stop : Nat} {l : Layout} {t : Tree}
    (h : t.StandsFor (l.place source offset))
    (hcovers : Span.Covers source ⟨offset, stop⟩ (l.gap ++ l.own)) :
    l.Shows source t.core.origin.fragment := by
  rw [h.origin]
  exact Layout.shows_place l hcovers

theorem Tree.StandsFor.parsed {t : Tree} {f : Fragment} (h : t.StandsFor f) :
    t.core.origin.synthetic = false := by
  rw [h.origin]
  rfl

theorem Tree.StandsFor.exists_comment {offset : Nat} {gap : List Chunk} {text : String} {t : Tree}
    (h : t.StandsFor ((Layout.comment gap text).place source offset)) :
    ∃ core text', t = .comment core text' := by
  cases t with
  | comment core text' => exact ⟨core, text', rfl⟩
  | directive => simp [Tree.StandsFor, Layout.place, Layout.placeLeaf] at h
  | block => simp [Tree.StandsFor, Layout.place, Layout.placeLeaf] at h

theorem Tree.StandsFor.exists_directive {offset : Nat} {gap arguments : List Chunk} {name : String}
    {t : Tree} (h : t.StandsFor ((Layout.directive gap name arguments).place source offset)) :
    ∃ core statement, t = .directive core statement := by
  cases t with
  | comment => simp [Tree.StandsFor, Layout.place, Layout.placeLeaf] at h
  | directive core statement => exact ⟨core, statement, rfl⟩
  | block => simp [Tree.StandsFor, Layout.place, Layout.placeLeaf] at h

theorem Tree.StandsFor.exists_block {offset : Nat} {gap arguments trailing : List Chunk}
    {name closing : String} {inside : List Layout} {blanks : List Char} {t : Tree}
    (h : t.StandsFor
      ((Layout.block gap name arguments inside trailing closing blanks).place source offset)) :
    ∃ core statement children, t = .block core statement children ∧ statement.name = name := by
  cases t with
  | comment => simp [Tree.StandsFor, Layout.place] at h
  | directive => simp [Tree.StandsFor, Layout.place] at h
  | block core statement children =>
    rw [Tree.StandsFor] at h
    obtain ⟨arguments', hkind⟩ := h.2.1
    simp only [Layout.place] at hkind
    exact ⟨core, statement, children, rfl, (FragmentKind.block.inj hkind).1.symm⟩

/-- A comment or block ends in the middle of a line. -/
theorem Tree.StandsFor.after_eq {offset stop : Nat} {l : Layout} {t : Tree}
    (h : t.StandsFor (l.place source offset)) (hl : l.Grammatical)
    (hlex : ∀ k ∈ l.own, k.IsLexical)
    (hcovers : Span.Covers source ⟨offset, stop⟩ (l.gap ++ l.own)) (hleaf : l.isDirective = false)
    (depth : Nat) (before e : Ending) : e.after (t.renderAfter depth before) = .midLine := by
  have hshows := h.shows hcovers
  have hparsed := h.parsed
  cases l with
  | directive gap name arguments => simp [Layout.isDirective] at hleaf
  | comment gap text =>
    obtain ⟨core, text', rfl⟩ := h.exists_comment
    rw [Tree.core] at hshows hparsed
    rw [Tree.renderAfter, hparsed, if_neg (by simp), hshows.text]
    exact hl.after_own hlex e
  | block gap name arguments inside trailing closing blanks =>
    obtain ⟨core, statement, children, rfl, hname⟩ := h.exists_block
    rw [Tree.core] at hshows hparsed
    by_cases hdirty : core.dirty = true
    · rw [hshows.block_eq hname hparsed hdirty, Ending.after_append]
      refine Ending.after_textOf _ (k := .closeTag closing blanks) (by simp)
        (hlex _ (by simp [Layout.own])) rfl
    · rw [hshows.block_eq_of_clean hparsed (by simpa using hdirty)]
      exact hl.after_own hlex e

/-- Only a directive can end with a line break now, and the gap after it has one. -/
theorem Tree.StandsFor.after_or_break {offset stop : Nat} {l : Layout} {t : Tree} {last : Bool}
    {trailing : List Chunk} {ls : List Layout} (h : t.StandsFor (l.place source offset))
    (hls : Layout.GrammaticalAll last trailing (l :: ls))
    (hlex : ∀ k ∈ Layout.ownAll (l :: ls), k.IsLexical)
    (hcovers : Span.Covers source ⟨offset, stop⟩ (l.gap ++ l.own)) (depth : Nat)
    (before e : Ending) :
    ∀ m ∈ ls.head?, e.after (t.renderAfter depth before) = .midLine ∨ '\n' ∈ textOf m.gap := by
  intro m hm
  by_cases hdirective : l.isDirective = true
  · right
    cases ls with
    | nil => simp at hm
    | cons n ls =>
      obtain rfl : n = m := by simpa using hm
      rcases hls.2.1 hdirective with hbreak | ⟨-, hnil⟩
      · exact mem_textOf_of_breaksLine hbreak fun k hk => hlex k (by simp [hk])
      · simp at hnil
  · left
    exact h.after_eq hls.1 (fun k hk => hlex k (by simp [hk])) hcovers
      (by simpa using hdirective) ..

mutual
/-- A node is rendered to its part of the file with its patches. -/
theorem Layout.patchBetween?_place {source : SourceFile} {offset stop : Nat} (depth : Nat)
    (before : Ending) (l : Layout) {t : Tree} (h : t.StandsFor (l.place source offset))
    (hl : l.Grammatical) (hlex : ∀ k ∈ l.own, k.IsLexical)
    (hcovers : Span.Covers source ⟨offset, stop⟩ (l.gap ++ l.own)) :
    source.patchBetween? (offset + extent l.gap) stop t.patches =
      some (t.renderAfter depth before).toList := by
  have hshows := h.shows hcovers
  have hsynthetic := h.parsed
  have hown := hcovers.append.2
  match l with
  | .comment gap text =>
    obtain ⟨core, text', rfl⟩ := h.exists_comment
    rw [Tree.core] at hshows hsynthetic
    rw [Tree.patches, Tree.renderAfter, hsynthetic, if_neg (by simp), hshows.text,
      String.toList_ofList]
    exact hown.slice?
  | .directive gap name arguments =>
    obtain ⟨core, statement, rfl⟩ := h.exists_directive
    rw [Tree.core] at hshows hsynthetic
    have hparsed : core.origin = .parsed _ := h.origin
    have hkeeps : core.keeps statement.parameters = true ↔
        core.origin.fragment.arguments? = some statement.parameters :=
      keeps_iff hsynthetic
    obtain rfl := hown.stop_eq
    rw [Tree.patches, Core.headerPatches, Tree.renderAfter]
    -- the whole directive is its header
    by_cases hsame : core.origin.fragment.arguments? = some statement.parameters
    · rw [if_pos hsame, if_pos (hkeeps.2 hsame), hshows.text, String.toList_ofList]
      exact hown.slice?
    · rw [if_neg hsame, if_neg fun heq => hsame (hkeeps.1 heq), hparsed]
      exact hown.patchBetween?_whole _
  | .block gap name arguments inside trailing closing blanks =>
    obtain ⟨core, statement, children, rfl, hname⟩ := h.exists_block
    rw [Tree.core] at hshows hsynthetic
    have hparsed : core.origin = .parsed _ := h.origin
    rw [Tree.StandsFor] at h
    obtain ⟨-, -, hclean, hinside⟩ := h
    by_cases hdirty : core.dirty = true
    · rw [hshows.block_eq hname hsynthetic hdirty, Tree.patches, hdirty]
      rw [Layout.own] at hown
      obtain ⟨hhead, hbody⟩ := hown.append
      obtain ⟨hmid, htail⟩ := hbody.append
      have hheader := (Layout.shows_place _ hcovers).patchBetween?_header hparsed hname rfl
      have hchildren := Layout.patchBetween?_placeAll (depth + 1) .midLine inside hinside hl.2.2.1
        (fun k hk => hlex k (by simp [Layout.own, hk])) hmid (fun _ _ => .inl rfl)
      have hall := SourceFile.patchBetween?_append hheader
        (SourceFile.patchBetween?_append hchildren htail.patchBetween?_nil)
      simpa [Layout.gap] using hall
    · have hdirty' : core.dirty = false := by simpa using hdirty
      rw [hclean hdirty', hshows.block_eq_of_clean hsynthetic hdirty', String.toList_ofList]
      exact hown.slice?

theorem Layout.patchBetween?_placeAll {source : SourceFile} {offset stop : Nat} (depth : Nat)
    (before : Ending) {last : Bool} {trailing : List Chunk} (ls : List Layout) {f : Forest}
    (h : Forest.StandsFor f (Layout.placeAll source offset ls))
    (hls : Layout.GrammaticalAll last trailing ls) (hlex : ∀ k ∈ Layout.ownAll ls, k.IsLexical)
    (hcovers : Span.Covers source ⟨offset, stop⟩ (Layout.ownAll ls))
    (hbefore : ∀ l ∈ ls.head?, before = .midLine ∨ '\n' ∈ textOf l.gap) :
    source.patchBetween? offset stop (Forest.patches true f) =
      some (Forest.renderAfter depth before f).toList := by
  match ls with
  | [] =>
    cases f with
    | nil => simpa [Forest.patches, Forest.renderAfter] using hcovers.patchBetween?_nil
    | cons t f => simp [Forest.StandsFor, Layout.placeAll] at h
  | l :: ls =>
    cases f with
    | nil => simp [Forest.StandsFor, Layout.placeAll] at h
    | cons t f =>
      rw [Forest.StandsFor, Layout.placeAll] at h
      obtain ⟨fragment, fragments, hcons, ht, hf⟩ := h
      obtain ⟨rfl, rfl⟩ := List.cons.inj hcons
      rw [Layout.ownAll_cons, ← List.append_assoc] at hcovers
      obtain ⟨hhere, hlater⟩ := hcovers.append
      rw [extent_append] at hlater hhere
      have hshows := Layout.shows_place l hhere
      have horigin := ht.origin
      have hgap := hshows.patchBetween?_gap horigin (a := offset) (b := offset + extent l.gap)
        (by cases l <;> rfl) (hbefore l rfl) depth
      have hnode := Layout.patchBetween?_place depth
        (before.after (separator depth before t.core.origin)) l ht hls.1
        (fun k hk => hlex k (by simp [hk])) hhere
      have hafter := ht.after_or_break hls hlex hhere depth
        (before.after (separator depth before t.core.origin))
        (before.after (separator depth before t.core.origin))
      have hrest := Layout.patchBetween?_placeAll depth _ ls hf hls.2.2
        (fun k hk => hlex k (by simp [hk])) hlater hafter
      have hall := SourceFile.patchBetween?_append hgap
        (SourceFile.patchBetween?_append hnode hrest)
      rw [Forest.patches, Forest.renderAfter, if_pos rfl]
      simpa using hall
end

/-! ## Whole documents -/

/-- The tree is that of a document, and its nodes come from the fragments of the document. -/
def Tree.IsDocumentOf (document : Fragment) (t : Tree) : Prop :=
  ∃ core children standing, t = .block core ⟨"", [], standing⟩ children ∧
    core.origin = .parsed document ∧ Forest.StandsFor children document.children

/-- A document is rendered to its file with its patches. -/
theorem Tree.IsDocumentOf.patch?_eq {p : Page} (hp : p.Legible)
    (htext : textOf p.chunks = source.text.toList) {root : Tree}
    (h : root.IsDocumentOf (p.place source)) :
    source.patch? root.documentPatches = some (root.renderAfter 0 .nothing) := by
  obtain ⟨core, children, standing, rfl, horigin, hchildren⟩ := h
  have hlength : source.length = extent p.chunks := by
    rw [SourceFile.length, ← Text.byteLength_toList, extent, htext]
  have hall : Span.Covers source ⟨0, source.length⟩ (Layout.ownAll p.statements ++ p.trailing) :=
    ⟨[], [], by simp [← htext, Page.chunks], by simp [hlength, Page.chunks]⟩
  obtain ⟨hstatements, htrailing⟩ := hall.append
  have hlex := hp.written.isLexical
  have hrender : (Tree.block core ⟨"", [], standing⟩ children).renderAfter 0 .nothing =
      Forest.renderAfter 0 .nothing children ++ String.ofList (textOf p.trailing) := by
    rw [Tree.renderAfter, horigin, if_pos (Origin.isDocument_parsed rfl)]
    simp only [Origin.parsed, Page.place, Fragment.slice]
    rw [← htrailing.slice_eq, Nat.zero_add]
  suffices hpatches : source.patchBetween? 0 (0 + extent (Layout.ownAll p.statements))
      (Tree.block core ⟨"", [], standing⟩ children).documentPatches =
        some (Forest.renderAfter 0 .nothing children).toList by
    have hwhole := SourceFile.patchBetween?_append hpatches htrailing.patchBetween?_nil
    rw [List.append_nil] at hwhole
    rw [SourceFile.patch?, hwhole, hrender, Option.map_some, String.ofList_append,
      String.ofList_toList]
  have hgrammatical := hp.grammatical
  simp only [Page.place] at hchildren
  cases hls : p.statements with
  | nil =>
    rw [hls] at hchildren hstatements
    cases children with
    | nil => exact hstatements.patchBetween?_nil
    | cons t f => simp [Forest.StandsFor, Layout.placeAll] at hchildren
  | cons l ls =>
    rw [hls] at hchildren hstatements hgrammatical
    cases children with
    | nil => simp [Forest.StandsFor, Layout.placeAll] at hchildren
    | cons t f =>
      rw [Forest.StandsFor, Layout.placeAll] at hchildren
      obtain ⟨fragment, fragments, hcons, ht, hf⟩ := hchildren
      obtain ⟨rfl, rfl⟩ := List.cons.inj hcons
      have hlex' : ∀ k ∈ Layout.ownAll (l :: ls), k.IsLexical := fun k hk =>
        hlex k (by simp only [Page.chunks, hls]; exact List.mem_append_left _ hk)
      rw [Layout.ownAll_cons, ← List.append_assoc] at hstatements
      obtain ⟨hhere, hlater⟩ := hstatements.append
      rw [extent_append] at hlater hhere
      -- the first gap is copied as it is
      have hgap : (separator 0 .nothing t.core.origin).toList = textOf l.gap := by
        rw [ht.origin, Origin.parsed, separator_eq (Layout.shows_place l hhere)]
        simp [renewedGap]
      have hnode := Layout.patchBetween?_place 0 (Ending.nothing.after (separator 0 .nothing
        t.core.origin)) l ht hgrammatical.1 (fun k hk => hlex' k (by simp [hk])) hhere
      have hafter := ht.after_or_break hgrammatical hlex' hhere 0
        (Ending.nothing.after (separator 0 .nothing t.core.origin))
        (Ending.nothing.after (separator 0 .nothing t.core.origin))
      have hrest := Layout.patchBetween?_placeAll 0 _ ls hf hgrammatical.2.2
        (fun k hk => hlex' k (by simp [hk])) hlater hafter
      have hwhole := SourceFile.patchBetween?_append hhere.append.1.patchBetween?_nil
        (SourceFile.patchBetween?_append hnode hrest)
      rw [Tree.documentPatches, Forest.renderAfter, String.toList_append, String.toList_append,
        hgap, List.append_assoc, Layout.ownAll_cons, ← List.append_assoc]
      exact hwhole

/-- The edit gives a node other parameters, or only looks. -/
def Edit.setsParameters : Edit → Bool
  | .setParameters _ _ => true
  | .look _ => true
  | _ => false

/-- The edit only looks. -/
def Edit.looks : Edit → Bool
  | .look _ => true
  | _ => false

/-- Whether the node has the arguments it was read with. -/
def Tree.keepsArguments (t : Tree) : Bool :=
  t.statement?.all fun s => t.core.origin.fragment.arguments? == some s.parameters

namespace Tree.IsDocumentOf

variable {document : Fragment} {policy : Policy}

theorem opened {p : Page} (h : p.Shows source document) (policy : Policy) :
    (Sheet.opened document policy).tree.IsDocumentOf document :=
  ⟨_, _, none, rfl, rfl, (Layout.ShowsAll.standsFor _ _ _ _ h.children).1⟩

/-- Setting parameters leaves the tree of a document one of its fragments. -/
theorem edit {s s' : Sheet} {e : Edit} (h : s.tree.IsDocumentOf document)
    (he : e.setsParameters = true) (hedit : s.edit e = some s') :
    s'.tree.IsDocumentOf document := by
  obtain ⟨blocks, rfl, rfl⟩ | ⟨block, content, position, b, rfl, -⟩ | ⟨block, child, b, rfl, -⟩ |
    ⟨node, parameters, t, rfl, ht, hname, rfl⟩ := Sheet.edit_cases hedit
  · exact h
  · simp [Edit.setsParameters] at he
  · simp [Edit.setsParameters] at he
  · obtain ⟨core, children, standing, htree, horigin, hchildren⟩ := h
    have hroot := Sheet.root_id_ne (by rw [htree]; rfl) ht hname
    simp only [htree] at hroot ⊢
    rw [Tree.touch, if_neg (by simpa [Tree.id, Tree.core] using hroot)]
    split
    · exact ⟨_, _, _, rfl, horigin, Forest.StandsFor.touch children hchildren⟩
    · exact ⟨_, _, _, rfl, horigin, hchildren⟩

theorem run {edits : List Edit} {s s' : Sheet} (h : s.tree.IsDocumentOf document)
    (hedits : ∀ e ∈ edits, e.setsParameters = true)
    (hrun : edits.foldlM Sheet.edit s = some s') : s'.tree.IsDocumentOf document :=
  Sheet.kept_run (P := fun s => s.tree.IsDocumentOf document)
    (fun e he _ _ hm hedit => hm.edit (hedits e he) hedit) h hrun

end Tree.IsDocumentOf

mutual
theorem Tree.patches_forget (t : Tree) : t.forget.patches = t.patches := by
  match t with
  | .comment core text => rfl
  | .directive core statement => rfl
  | .block core statement children =>
    rw [Tree.forget_block, Tree.patches, Tree.patches, Forest.patches_forget core.dirty children]
    rfl

theorem Forest.patches_forget (breaks : Bool) (f : Forest) :
    Forest.patches breaks (f.map Tree.forget) = Forest.patches breaks f := by
  match f with
  | [] => rfl
  | t :: f =>
    rw [List.map_cons, Forest.patches, Forest.patches, Tree.patches_forget t,
      Forest.patches_forget breaks f, Tree.breakPatches, Tree.breakPatches, Tree.startsLine,
      Tree.startsLine, Tree.forget_core]
end

theorem Tree.documentPatches_forget (t : Tree) : t.forget.documentPatches = t.documentPatches := by
  rw [Tree.documentPatches, Tree.documentPatches, Tree.forget_children]
  cases t.children with
  | nil => rfl
  | cons first rest =>
    simp only [List.map_cons]
    rw [Tree.patches_forget, Forest.patches_forget]

/-! ## When nothing is patched -/

theorem SourceFile.patch?_nil (source : SourceFile) : source.patch? [] = some source.text := by
  have hwhole : Text.slice? source.text.toList 0 source.length = some source.text.toList := by
    rw [SourceFile.length, ← Text.byteLength_toList]
    exact Text.slice?_eq_some_iff.2 ⟨[], [], by simp, rfl, by simp⟩
  rw [SourceFile.patch?, SourceFile.patchBetween?, hwhole, Option.map_some, String.ofList_toList]

/-- Insertions add their bytes. -/
theorem SourceFile.byteLength_of_patchBetween? (h : source.patchBetween? a b ps = some s)
    (hps : ∀ p ∈ ps, p.span.start = p.span.stop) :
    a + Text.byteLength s = b + (ps.map fun p => p.text.utf8ByteSize).sum := by
  induction ps generalizing a s with
  | nil =>
    obtain ⟨before, after, -, rfl, rfl⟩ := Text.slice?_eq_some_iff.1 h
    simp
  | cons p ps ih =>
    obtain ⟨before, mid, after, hbefore, -, hafter, rfl⟩ :=
      SourceFile.patchBetween?_cons_eq_some_iff.1 h
    obtain ⟨skipped, rest, -, rfl, hstart⟩ := Text.slice?_eq_some_iff.1 hbefore
    have hrest := ih hafter fun q hq => hps q (by simp [hq])
    rw [← hps p (by simp), ← hstart] at hrest
    simp only [Text.byteLength_append, Text.byteLength_toList, List.map_cons, List.sum_cons]
    omega

/-- A text with something inserted is another text. -/
theorem SourceFile.patch?_ne (hps : ∀ p ∈ ps, p.span.start = p.span.stop ∧ p.text ≠ "")
    (hne : ps ≠ []) : source.patch? ps ≠ some source.text := by
  intro h
  obtain ⟨s, hs, htext⟩ := Option.map_eq_some_iff.1 h
  have hlength := SourceFile.byteLength_of_patchBetween? hs fun p hp => (hps p hp).1
  rw [← Text.utf8ByteSize_ofList, htext, SourceFile.length] at hlength
  obtain ⟨p, ps, rfl⟩ := List.exists_cons_of_ne_nil hne
  have hpos : 0 < p.text.utf8ByteSize := by
    rw [Nat.pos_iff_ne_zero]
    intro hzero
    exact (hps p (by simp)).2 (String.utf8ByteSize_eq_zero_iff.1 hzero)
  simp only [List.map_cons, List.sum_cons] at hlength
  omega

mutual
/-- Where arguments are kept and every node starts a line, nothing is patched. -/
theorem Tree.patches_eq_nil (t : Tree) (hkeeps : ∀ u ∈ t.nodes, u.keepsArguments = true)
    (hlines : ∀ u ∈ Forest.nodes t.children, u.startsLine = true) : t.patches = [] := by
  have hself := hkeeps t t.self_mem_nodes
  match t with
  | .comment core text => rfl
  | .directive core statement =>
    rw [Tree.patches, Core.headerPatches, if_pos]
    simpa [Tree.keepsArguments, Tree.statement?, Tree.core] using hself
  | .block core statement children =>
    rw [Tree.patches, Core.headerPatches, if_pos, List.nil_append]
    · exact Forest.patches_eq_nil core.dirty children
        (fun u hu => hkeeps u (Tree.mem_nodes_of_mem_children hu)) hlines
    · simpa [Tree.keepsArguments, Tree.statement?, Tree.core] using hself

theorem Forest.patches_eq_nil (breaks : Bool) (f : Forest)
    (hkeeps : ∀ u ∈ Forest.nodes f, u.keepsArguments = true)
    (hlines : ∀ u ∈ Forest.nodes f, u.startsLine = true) : Forest.patches breaks f = [] := by
  match f with
  | [] => rw [Forest.patches]
  | t :: f =>
    have hbreak : t.breakPatches = [] := if_pos (hlines t (by simp [t.self_mem_nodes]))
    rw [Forest.patches, hbreak, ite_self,
      Tree.patches_eq_nil t (fun u hu => hkeeps u (by simp [hu]))
        (fun u hu => hlines u (by simp [Tree.mem_nodes_of_mem_children hu])),
      Forest.patches_eq_nil breaks f (fun u hu => hkeeps u (by simp [hu]))
        (fun u hu => hlines u (by simp [hu]))]
    rfl
end

/-- Trees without patches of their own get line breaks only. -/
theorem Forest.patches_of_unchanged (f : Forest) (h : ∀ t ∈ f, t.patches = []) :
    Forest.patches true f = f.flatMap Tree.breakPatches := by
  induction f with
  | nil => rw [Forest.patches, List.flatMap_nil]
  | cons t f ih =>
    rw [Forest.patches, h t (by simp), ih fun u hu => h u (by simp [hu]), if_pos rfl,
      List.append_nil, List.flatMap_cons]

/-- Edits that only look change nothing. -/
theorem Sheet.run_looks {edits : List Edit} {s s' : Sheet}
    (hedits : ∀ e ∈ edits, e.looks = true) (hrun : edits.foldlM Sheet.edit s = some s') :
    s' = s := by
  induction edits with
  | nil => exact (Option.some.inj hrun).symm
  | cons e edits ih =>
    cases e with
    | look blocks => exact ih (fun e' he' => hedits e' (by simp [he'])) hrun
    | _ => simpa [Edit.looks] using hedits _ List.mem_cons_self

/-- A document that was just opened gets line breaks only. -/
theorem Page.Shows.documentPatches_opened {p : Page} {document : Fragment}
    (h : p.Shows source document) (policy : Policy) :
    (Sheet.opened document policy).tree.documentPatches =
      (Sheet.opened document policy).tree.children.tail.flatMap Tree.breakPatches := by
  have hnone := (Layout.ShowsAll.standsFor ⟨policy, 0⟩ 0 1 _ h.children).2
  simp only [Sheet.opened, Tree.documentPatches, Tree.children]
  cases hchildren : (Forest.ofFragments ⟨policy, 0⟩ 0 1 document.children).1 with
  | nil => rfl
  | cons first rest =>
    rw [hchildren] at hnone
    simp only [List.tail_cons]
    rw [hnone first (by simp), List.nil_append]
    exact Forest.patches_of_unchanged rest fun t ht => hnone t (by simp [ht])

/-- Line breaks change a text. -/
theorem SourceFile.patch?_breakPatches_iff {f : Forest} :
    source.patch? (f.flatMap Tree.breakPatches) = some source.text ↔
      ∀ t ∈ f, t.startsLine = true := by
  constructor
  · intro h
    by_contra hsome
    push Not at hsome
    obtain ⟨t, ht, hstarts⟩ := hsome
    refine SourceFile.patch?_ne (fun p hp => ?_) ?_ h
    · obtain ⟨u, -, hp⟩ := List.mem_flatMap.1 hp
      unfold Tree.breakPatches at hp
      split at hp
      · simp at hp
      · rw [List.mem_singleton.1 hp]
        exact ⟨rfl, by simp⟩
    · intro hnil
      have hbreak := List.flatMap_eq_nil_iff.1 hnil t ht
      simp [Tree.breakPatches, hstarts] at hbreak
  · intro h
    have hnil : f.flatMap Tree.breakPatches = [] :=
      List.flatMap_eq_nil_iff.2 fun t ht => if_pos (h t ht)
    rw [hnil]
    exact source.patch?_nil

/-- A document with the arguments it was read with, whose nodes but the first start lines, has
nothing to patch. -/
theorem Tree.documentPatches_eq_nil (r : Tree)
    (hlines : ∀ t ∈ (Forest.nodes r.children).tail, t.startsLine = true)
    (hkeeps : ∀ t ∈ Forest.nodes r.children, t.keepsArguments = true) :
    r.documentPatches = [] := by
  rw [Tree.documentPatches]
  cases hchildren : r.children with
  | nil => rfl
  | cons first rest =>
    rw [hchildren] at hlines hkeeps
    rw [Forest.nodes, first.nodes_eq, List.cons_append, List.tail_cons] at hlines
    simp only [Forest.nodes_cons, List.mem_append] at hkeeps
    exact List.append_eq_nil_iff.2
      ⟨Tree.patches_eq_nil first (fun u hu => hkeeps u (.inl hu))
        fun u hu => hlines u (List.mem_append_left _ hu),
      Forest.patches_eq_nil true rest (fun u hu => hkeeps u (.inr hu))
        fun u hu => hlines u (List.mem_append_right _ hu)⟩

/-- After any change of parameters, a document is rendered to its file with the headers of the nodes
that have other parameters replaced, and with line breaks before the nodes of the document and of
dirty blocks that do not start a line. So an untouched document is rendered to its file just when
all its statements but the first start a line, and a document with the parameters it was read with
is rendered to its file when all its nodes but the first do. -/
theorem patch?_documentPatches {policy : Policy} {edits : List Edit} {r : Tree} {w : Workspace}
    (h : editFile source policy edits = some (r, w))
    (hedits : ∀ e ∈ edits, e.setsParameters = true) :
    source.patch? r.documentPatches = some (w.forest.render [r]) ∧
    ((∀ e ∈ edits, e.looks = true) →
      (w.forest.render [r] = source.text ↔ ∀ t ∈ r.children.tail, t.startsLine = true)) ∧
    ((∀ t ∈ (Forest.nodes r.children).tail, t.startsLine = true) →
      (∀ t ∈ Forest.nodes r.children, t.keepsArguments = true) →
      w.forest.render [r] = source.text) := by
  obtain ⟨document, s, hread, hrun, -, rfl⟩ := exists_sheet_of_editFile h
  obtain ⟨p, hp, htext, rfl⟩ := Fragment.read_eq_ok_iff.1 hread
  obtain ⟨q, -, -, hshows⟩ := Fragment.exists_page_of_read hread
  have hstands := (Tree.IsDocumentOf.opened hshows policy).run hedits hrun
  obtain ⟨core, children, standing, hr, horigin, -⟩ := id hstands
  have hrender := Forest.render_of_forget w.forest hr horigin hshows.kind_eq
  have hpatch : source.patch? r.documentPatches = some (w.forest.render [r]) := by
    rw [hrender, ← Tree.documentPatches_forget]
    exact hstands.patch?_eq hp htext
  refine ⟨hpatch, fun hlooks => ?_, fun hlines hkeeps => ?_⟩
  · have hsheet := Sheet.run_looks hlooks hrun
    have hbreaks := hshows.documentPatches_opened policy
    rw [← hsheet, Tree.documentPatches_forget] at hbreaks
    have hstarts : ∀ t : Tree, t.forget.startsLine = t.startsLine := fun t => by
      rw [Tree.startsLine, Tree.startsLine, Tree.forget_core]
    rw [← Option.some_inj, ← hpatch, hbreaks, SourceFile.patch?_breakPatches_iff,
      Tree.forget_children, ← List.map_tail, List.forall_mem_map]
    simp only [hstarts]
  · rw [r.documentPatches_eq_nil hlines hkeeps, source.patch?_nil] at hpatch
    exact (Option.some.inj hpatch).symm

/-- Two headers are replaced and two nodes get lines of their own; in a file with a node on each
line, parameters that are set and set back leave no trace. -/
theorem patch?_documentPatches_crowded :
    (∃ r w, editFile ⟨⟨"site.conf"⟩, "Listen 80 \\\n 443\n<A x><B>\nC \"q\"\n</B> # d\n</A>\n"⟩
        Policy.default [.setParameters 1 ["8080"], .setParameters 4 []] = some (r, w) ∧
      SourceFile.patch? ⟨⟨"site.conf"⟩, "Listen 80 \\\n 443\n<A x><B>\nC \"q\"\n</B> # d\n</A>\n"⟩
        [⟨⟨0, 16⟩, "Listen 8080"⟩, ⟨⟨22, 22⟩, "\n"⟩, ⟨⟨26, 31⟩, "C"⟩, ⟨⟨36, 36⟩, "\n"⟩] =
          some (w.forest.render [r])) ∧
    ∃ r w, editFile ⟨⟨"site.conf"⟩, "Listen 80 \\\n 443\n<A x>\n# d\n</A>\n"⟩ Policy.default
        [.setParameters 1 ["8080"], .setParameters 2 [], .setParameters 2 ["x"],
          .setParameters 1 ["80", "443"]] = some (r, w) ∧
      w.forest.render [r] = "Listen 80 \\\n 443\n<A x>\n# d\n</A>\n" := by
  have hcrowded : ((editFile
      ⟨⟨"site.conf"⟩, "Listen 80 \\\n 443\n<A x><B>\nC \"q\"\n</B> # d\n</A>\n"⟩
      Policy.default [.setParameters 1 ["8080"], .setParameters 4 []]).any fun edited =>
        edited.1.documentPatches =
          [⟨⟨0, 16⟩, "Listen 8080"⟩, ⟨⟨22, 22⟩, "\n"⟩, ⟨⟨26, 31⟩, "C"⟩, ⟨⟨36, 36⟩, "\n"⟩]) =
      true := by
    decide +kernel
  have hrestored : ((editFile ⟨⟨"site.conf"⟩, "Listen 80 \\\n 443\n<A x>\n# d\n</A>\n"⟩
      Policy.default [.setParameters 1 ["8080"], .setParameters 2 [], .setParameters 2 ["x"],
        .setParameters 1 ["80", "443"]]).any fun edited =>
          (Forest.nodes edited.1.children).tail.all Tree.startsLine &&
            (Forest.nodes edited.1.children).all Tree.keepsArguments) = true := by
    decide +kernel
  constructor
  · obtain ⟨⟨r, w⟩, h, hpatches⟩ := (Option.any_eq_true ..).1 hcrowded
    have hpatch := (patch?_documentPatches h (by decide)).1
    rw [of_decide_eq_true hpatches] at hpatch
    exact ⟨r, w, h, hpatch⟩
  · obtain ⟨⟨r, w⟩, h, hall⟩ := (Option.any_eq_true ..).1 hrestored
    obtain ⟨hlines, hkeeps⟩ := Bool.and_eq_true_iff.1 hall
    have hsame := (patch?_documentPatches h (by decide)).2.2
      (List.all_eq_true.1 hlines) (List.all_eq_true.1 hkeeps)
    exact ⟨r, w, h, hsame⟩

end HttpdConf
