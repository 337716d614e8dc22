import HttpdConf.Proofs.Ancestry
import HttpdConf.Proofs.Statements
import HttpdConf.Session.Document

/-!
# Where nodes come from

A parsed node comes from a fragment, and what is inside it from the fragments inside that one, or
was added later. Nothing that is done to a tree changes this, and no fragment of a whole file
becomes a node inside another one. So in the tree of a document that was put together from files,
every parsed node below the root has an open tag, or a text, of its own.

## Main definitions

* `Fragment.IsHeaded`: every fragment inside has a header, unless it is a whole file
* `Origin.Bears`: where a node can come from, given where the block around it comes from
* `Tree.Bears`: the children of a node come from where they can

## Main results

* `DocumentSpec.isHeaded_of_assemble`: documents with included files are headed
* `Workspace.bears_run`: in any workspace that operations lead to, children come from where they can
* `Tree.isHeaded_of_mem_nodes`: what is below the root of such a document has a header
-/

namespace HttpdConf

/-! ## Headers -/

/-- The fragment and all inside have a header, apart from whole files. -/
inductive Fragment.IsHeaded : Fragment → Prop
  | intro {f : Fragment} (header_ne : f.kind ≠ .document → (f.slice f.header).toList ≠ [])
      (children : ∀ g ∈ f.children, g.IsHeaded) : f.IsHeaded

namespace Fragment

variable {f f' g : Fragment} {fs : List Fragment}

namespace IsHeaded

theorem header_ne (h : f.IsHeaded) : f.kind ≠ .document → (f.slice f.header).toList ≠ [] := by
  cases h
  assumption

theorem child (h : f.IsHeaded) (hg : g ∈ f.children) : g.IsHeaded := by
  cases h with
  | intro _ hchildren => exact hchildren g hg

theorem withChildren (h : f.IsHeaded) (hfs : ∀ g ∈ fs, g.IsHeaded) :
    (f.withChildren fs).IsHeaded :=
  .intro h.header_ne hfs

end IsHeaded

/-- An insertion changes nothing but children. -/
theorem exists_of_splice? {index : Nat} {new : List Fragment} {into : List Nat}
    (h : f.splice? index new into = some f') : ∃ fs, f' = f.withChildren fs := by
  cases into with
  | nil =>
    rw [splice?] at h
    split at h
    · exact ⟨_, (Option.some.inj h).symm⟩
    · simp at h
  | cons i into =>
    rw [splice?] at h
    split at h
    · simp at h
    · obtain ⟨child, -, rfl⟩ := Option.map_eq_some_iff.1 h
      exact ⟨_, rfl⟩

theorem IsHeaded.splice? {index : Nat} {new : List Fragment} {into : List Nat} (hf : f.IsHeaded)
    (hnew : ∀ g ∈ new, g.IsHeaded) (h : f.splice? index new into = some f') : f'.IsHeaded := by
  induction into generalizing f f' with
  | nil =>
    rw [Fragment.splice?] at h
    split at h
    · obtain rfl := Option.some.inj h
      refine hf.withChildren fun g hg => ?_
      simp only [List.mem_append] at hg
      rcases hg with (hg | hg) | hg
      · exact hf.child (List.mem_of_mem_take hg)
      · exact hnew g hg
      · exact hf.child (List.mem_of_mem_drop hg)
    · simp at h
  | cons i into ih =>
    rw [Fragment.splice?] at h
    split at h
    · simp at h
    · rename_i child hchild
      obtain ⟨child', hsplice, rfl⟩ := Option.map_eq_some_iff.1 h
      refine hf.withChildren fun g hg => ?_
      rcases List.mem_or_eq_of_mem_set hg with hg | rfl
      · exact hf.child hg
      · exact ih (hf.child (List.mem_of_getElem? hchild)) hsplice

end Fragment

namespace Layout

variable {source : SourceFile}

mutual
/-- What was read has a header, as its first chunk is a token. -/
theorem Shows.isHeaded (l : Layout) {f : Fragment} (hlex : ∀ k ∈ l.own, k.IsLexical)
    (h : l.Shows source f) : f.IsHeaded := by
  match l with
  | .comment gap text =>
    rw [Shows] at h
    obtain ⟨-, hchildren, -, hparts⟩ := h
    have hne := (hlex (.comment text) (by simp [own])).text_ne_nil
    refine .intro (fun _ => ?_) (by simp [hchildren])
    rw [hparts.slice_eq, hparts.header.slice_eq, String.toList_ofList, textOf_cons]
    exact List.append_ne_nil_of_left_ne_nil hne _
  | .directive gap name arguments =>
    rw [Shows] at h
    obtain ⟨-, hchildren, -, hparts⟩ := h
    have hne := (hlex (.word name) (by simp [own])).text_ne_nil
    refine .intro (fun _ => ?_) (by simp [hchildren])
    rw [hparts.slice_eq, hparts.header.slice_eq, String.toList_ofList, textOf_cons]
    exact List.append_ne_nil_of_left_ne_nil hne _
  | .block gap name arguments inside trailing closing blanks =>
    rw [Shows] at h
    obtain ⟨-, hchildren, hparts⟩ := h
    refine .intro (fun _ => ?_) (ShowsAll.isHeaded inside (fun k hk => ?_) hchildren)
    · rw [hparts.slice_eq, hparts.header.slice_eq]
      simp [openTagChunks]
    · exact hlex k (by simp [own, hk])

theorem ShowsAll.isHeaded (ls : List Layout) {fs : List Fragment}
    (hlex : ∀ k ∈ ownAll ls, k.IsLexical) (h : ShowsAll source ls fs) :
    ∀ f ∈ fs, f.IsHeaded := by
  match ls with
  | [] =>
    rw [ShowsAll] at h
    simp [h]
  | l :: ls =>
    rw [ShowsAll] at h
    obtain ⟨f, rest, rfl, hf, hrest⟩ := h
    rw [List.forall_mem_cons]
    exact ⟨Shows.isHeaded l (fun k hk => hlex k (by simp [ownAll, hk])) hf,
      ShowsAll.isHeaded ls (fun k hk => hlex k (by simp [ownAll, hk])) hrest⟩
end

end Layout

theorem Fragment.isHeaded_of_read {source : SourceFile} {document : Fragment}
    (h : Fragment.read source = .ok document) :
    document.IsHeaded ∧ document.kind = .document := by
  obtain ⟨p, hp, -, hshows⟩ := Fragment.exists_page_of_read h
  have hlex : ∀ k ∈ Layout.ownAll p.statements, k.IsLexical := fun k hk =>
    hp.written.isLexical k (List.mem_append_left _ hk)
  exact ⟨.intro (fun hkind => absurd hshows.kind_eq hkind)
    (Layout.ShowsAll.isHeaded p.statements hlex hshows.children), hshows.kind_eq⟩

mutual
/-- A document is headed, whatever files are included in it. -/
theorem DocumentSpec.isHeaded_of_assemble (spec : DocumentSpec) {document : Fragment}
    (h : spec.assemble = .ok document) : document.IsHeaded ∧ document.kind = .document := by
  match spec with
  | .file source includes =>
    rw [DocumentSpec.assemble] at h
    split at h
    · simp at h
    · rename_i root hread
      exact DocumentSpec.isHeaded_of_includeAll includes (Fragment.isHeaded_of_read hread) h

theorem DocumentSpec.isHeaded_of_includeAll (includes : List (Splice × DocumentSpec))
    {root document : Fragment} (hroot : root.IsHeaded ∧ root.kind = .document)
    (h : DocumentSpec.includeAll root includes = .ok document) :
    document.IsHeaded ∧ document.kind = .document := by
  match includes with
  | [] =>
    rw [DocumentSpec.includeAll] at h
    rwa [← Except.ok.inj h]
  | (place, spec) :: rest =>
    rw [DocumentSpec.includeAll] at h
    split at h
    · simp at h
    · rename_i included hassemble
      obtain ⟨hincluded, -⟩ := DocumentSpec.isHeaded_of_assemble spec hassemble
      simp only at h
      split at h
      · simp at h
      · rename_i root' hsplice
        have hnew : ∀ g ∈ (if place.whole then [included] else included.children),
            g.IsHeaded := by
          intro g hg
          split at hg
          · rwa [List.mem_singleton.1 hg]
          · exact hincluded.child hg
        have hheaded := hroot.1.splice? hnew hsplice
        obtain ⟨fs, rfl⟩ := Fragment.exists_of_splice? hsplice
        exact DocumentSpec.isHeaded_of_includeAll rest ⟨hheaded, hroot.2⟩ h
end

/-! ## Nodes and the blocks around them -/

/-- Where a node can come from, in a block with a known origin: it was added later, or both were
parsed, and its fragment is one of those in the block's. -/
def Origin.Bears (o o' : Origin) : Prop :=
  o'.synthetic = true ∨
    o.synthetic = false ∧ o'.fragment ∈ o.fragment.children ∧ o'.fragment.kind ≠ .document

/-- The children of the node come from where they can. -/
def Tree.Bears (t : Tree) : Prop := ∀ u ∈ t.children, t.core.origin.Bears u.core.origin

variable {w w' : Workspace} {t u r : Tree} {f f' : Forest}

/-- Nodes whose cores and whose children's cores are those of another one come from where they
can. -/
theorem Tree.Bears.of_cores (h : t.Bears) (hcore : u.core.origin = t.core.origin)
    (hchildren : ∀ x ∈ u.children, ∃ y ∈ t.children, x.core.origin = y.core.origin) :
    u.Bears := by
  intro x hx
  obtain ⟨y, hy, hxy⟩ := hchildren x hx
  rw [hcore, hxy]
  exact h y hy

theorem Tree.bears_of_children_eq_nil (h : t.children = []) : t.Bears := by
  simp [Tree.Bears, h]

mutual
/-- The nodes of fragments come from where they can. -/
theorem Tree.bears_ofFragment (k : Kinship) (ancestor next : NodeId) (f : Fragment) :
    ∀ t ∈ (Tree.ofFragment k ancestor next f).1,
      t.core.origin = .parsed f ∧ f.kind ≠ .document ∧ ∀ u ∈ t.nodes, u.Bears := by
  match f with
  | ⟨source, .document, span, leading, header, trailing, footer, children⟩ =>
    simp [Tree.ofFragment]
  | ⟨source, .comment text, span, leading, header, trailing, footer, children⟩ =>
    rintro t ⟨rfl⟩
    refine ⟨rfl, by simp, fun u hu => ?_⟩
    rw [List.mem_singleton.1 hu]
    exact Tree.bears_of_children_eq_nil rfl
  | ⟨source, .directive name arguments, span, leading, header, trailing, footer, children⟩ =>
    rintro t ⟨rfl⟩
    refine ⟨rfl, by simp, fun u hu => ?_⟩
    rw [List.mem_singleton.1 hu]
    exact Tree.bears_of_children_eq_nil rfl
  | ⟨source, .block name arguments, span, leading, header, trailing, footer, children⟩ =>
    rintro t ⟨rfl⟩
    obtain ⟨horigins, hnodes⟩ := Forest.bears_ofFragments k next (next + 1) children
    refine ⟨rfl, by simp, fun u hu => ?_⟩
    rw [Tree.nodes] at hu
    rcases List.mem_cons.1 hu with rfl | hu
    · intro x hx
      obtain ⟨g, hg, horigin, hkind⟩ := horigins x hx
      rw [horigin]
      exact .inr ⟨rfl, hg, hkind⟩
    · exact hnodes u hu

theorem Forest.bears_ofFragments (k : Kinship) (ancestor next : NodeId) (fs : List Fragment) :
    (∀ t ∈ (Forest.ofFragments k ancestor next fs).1,
      ∃ f ∈ fs, t.core.origin = .parsed f ∧ f.kind ≠ .document) ∧
    ∀ t ∈ Forest.nodes (Forest.ofFragments k ancestor next fs).1, t.Bears := by
  match fs with
  | [] => simp [Forest.ofFragments]
  | f :: fs =>
    have hhere := Tree.bears_ofFragment k ancestor next f
    obtain ⟨horigins, hnodes⟩ :=
      Forest.bears_ofFragments k ancestor (Tree.ofFragment k ancestor next f).2 fs
    rw [Forest.ofFragments_cons]
    constructor
    · intro t ht
      rcases List.mem_append.1 ht with ht | ht
      · obtain ⟨horigin, hkind, -⟩ := hhere t (Option.mem_toList.1 ht)
        exact ⟨f, List.mem_cons_self .., horigin, hkind⟩
      · obtain ⟨g, hg, h⟩ := horigins t ht
        exact ⟨g, List.mem_cons_of_mem _ hg, h⟩
    · intro u hu
      rw [Forest.nodes_append, List.mem_append] at hu
      rcases hu with hu | hu
      · obtain ⟨t, ht, hu⟩ := Forest.mem_nodes.1 hu
        exact (hhere t (Option.mem_toList.1 ht)).2.2 u hu
      · exact hnodes u hu
end

/-! ## Operations -/

/-- Flags and memories play no part. -/
theorem Forest.bears_of_bare_eq (hf : ∀ t ∈ Forest.nodes f, t.Bears)
    (h : f'.map Tree.bare = f.map Tree.bare) : ∀ t ∈ Forest.nodes f', t.Bears := by
  intro t ht
  obtain ⟨u, hu, hbare⟩ := Forest.exists_of_bare_eq h ht
  refine (hf u hu).of_cores (Tree.origin_eq_of_bare_eq hbare) fun x hx => ?_
  obtain ⟨y, hy, hxy⟩ := Tree.exists_child_of_bare_eq hbare hx
  exact ⟨y, hy, Tree.origin_eq_of_bare_eq hxy⟩

/-- A block that is made has the children of its fragment, or none if it was not parsed. -/
theorem Blueprint.bears_of_make {b : Blueprint} {kin : Kinship} {id next : NodeId}
    {content : NodeContent} {standing : Bool} (h : b.make kin id content standing = .ok (t, next)) :
    ∀ u ∈ t.nodes, u.Bears := by
  obtain ⟨-, hnil | ⟨hparsed, hchildren⟩⟩ := Blueprint.make_cases h
  · intro u hu
    rw [Tree.nodes_of_children_eq_nil hnil, List.mem_singleton] at hu
    rw [hu]
    exact Tree.bears_of_children_eq_nil hnil
  · obtain ⟨horigins, hnodes⟩ :=
      Forest.bears_ofFragments kin id (id + 1) t.core.origin.fragment.children
    rw [← hchildren] at horigins hnodes
    intro u hu
    rw [Tree.nodes_eq] at hu
    rcases List.mem_cons.1 hu with rfl | hu
    · intro x hx
      obtain ⟨g, hg, horigin, hkind⟩ := horigins x hx
      rw [horigin]
      exact .inr ⟨hparsed, hg, hkind⟩
    · exact hnodes u hu

/-- Where a node is altered, what is added to it was not parsed. -/
theorem Workspace.Alters.bears (hw : w.Sound) {g : Tree → Tree} {loose : Forest} {next : NodeId}
    (hbears : ∀ t ∈ Forest.nodes w.forest, t.Bears) (ht : t ∈ Forest.nodes w.forest)
    (h : w.Alters t g loose next) :
    ∀ u ∈ Forest.nodes (loose ++ w.forest.update t.id g), u.Bears := by
  intro u hu
  rcases h.exists_of_mem_nodes hw.tidy ht hu with hcore | ⟨v, hv, hcore, hchildren⟩ | ⟨-, hempty⟩
  · obtain rfl := h.eq_of_core_eq hw ht hu hcore
    intro x hx
    rw [hcore]
    rcases h.mem_children hx with hx | hnew
    · exact hbears t ht x hx
    · rw [hnew]
      exact .inl rfl
  · refine (hbears v hv).of_cores (congrArg Core.origin hcore) fun x hx => ?_
    obtain ⟨y, hy, hxy⟩ := hchildren x hx
    exact ⟨y, hy, congrArg Core.origin hxy⟩
  · exact Tree.bears_of_children_eq_nil hempty

namespace Workspace

theorem bare_writeUnsaved {σ : Type} (writer : Writer (StateM σ)) (state : σ) (t : Tree) :
    (Id.run ((w.writeUnsaved writer t).run state)).1.2.forest.map Tree.bare =
      w.forest.map Tree.bare := by
  unfold Workspace.writeUnsaved
  simp only
  split
  · exact Forest.bare_list _ _
  · split
    · exact Forest.bare_list _ _
    · simp only [StateT.run_bind, Id.run_bind]
      split
      · exact Forest.bare_list _ _
      · exact (Forest.bare_update (Tree.bare_settle _) _).trans (Forest.bare_list _ _)

/-- No operation puts a node into a block that it cannot come from. -/
theorem bears_perform (hw : w.Sound) (hbears : ∀ t ∈ Forest.nodes w.forest, t.Bears)
    (op : Operation) : ∀ t ∈ Forest.nodes (w.perform op).forest, t.Bears := by
  cases op with
  | construct b content standing =>
    rw [perform]
    split
    · rw [construct_eq]
      cases hmake : b.make (w.kinship b) w.next content standing with
      | error e => exact hbears
      | ok made =>
        obtain ⟨t, next⟩ := made
        have hadopt : (w.forest.adopt b.dirty t).map Tree.bare = (t :: w.forest).map Tree.bare := by
          rw [Forest.adopt]
          split
          · exact Forest.bare_markDirtyAbove _ _
          · rfl
        refine Forest.bears_of_bare_eq (fun u hu => ?_) hadopt
        rw [Forest.nodes_cons, List.mem_append] at hu
        exact hu.elim (Blueprint.bears_of_make hmake u) (hbears u)
    · exact hbears
  | edit root e =>
    rw [perform]
    cases hedit : w.edit root e with
    | none => exact hbears
    | some w' =>
      have heffect := effect_edit hw.tidy hedit
      cases e with
      | look blocks =>
        obtain rfl := Option.some.inj hedit
        exact Forest.bears_of_bare_eq hbears (Forest.bare_list _ _)
      | _ =>
        cases heffect with
        | change ht halters =>
          exact Forest.bears_of_bare_eq (halters.bears hw hbears ht) (Forest.bare_markModified _ _)
  | save node message =>
    rw [perform]
    cases w.forest.find? node with
    | none => exact hbears
    | some t =>
      simp only [Option.map_some, Option.getD_some, Workspace.save]
      split <;> exact hbears
  | write node writer state =>
    rw [perform]
    cases w.forest.find? node with
    | none => exact hbears
    | some t => exact Forest.bears_of_bare_eq hbears (bare_writeUnsaved writer state t)
  | markClean node =>
    rw [perform]
    cases w.forest.find? node with
    | none => exact hbears
    | some t =>
      exact Forest.bears_of_bare_eq hbears (Forest.bare_update Tree.bare_markClean w.forest)
  | sweep held => exact fun t ht => hbears t ((Forest.nodes_sweep held w.forest).subset ht)

/-- Whatever is done, nodes stay in blocks that they can come from. -/
theorem bears_run (hw : w.Sound) (hbears : ∀ t ∈ Forest.nodes w.forest, t.Bears)
    (operations : List Operation) : ∀ t ∈ Forest.nodes (w.run operations).forest, t.Bears := by
  induction operations generalizing w with
  | nil => exact hbears
  | cons op operations ih =>
    rw [run, List.foldl_cons]
    exact ih (hw.run [op]) (bears_perform hw hbears op)

end Workspace

/-! ## Below a document -/

/-- In the tree of a headed document, every parsed node comes from a headed fragment, and below the
root none comes from a whole file. -/
theorem Tree.isHeaded_of_mem_nodes {document : Fragment} (hdocument : document.IsHeaded)
    (horigin : r.core.origin = .parsed document) (hbears : ∀ t ∈ r.nodes, t.Bears) :
    ∀ t ∈ r.nodes, t.core.origin.synthetic = false → t.core.origin.fragment.IsHeaded := by
  refine Tree.forall_nodes_of_children r (fun v hv hheaded x hx hparsed => ?_) fun _ => ?_
  · rcases hbears v hv x hx with hsynthetic | ⟨hparsed', hmem, -⟩
    · simp [hsynthetic] at hparsed
    · exact (hheaded hparsed').child hmem
  · rw [horigin]
    exact hdocument

/-- What is below the root of a headed document is no document, and has a header if it was
parsed. -/
theorem Tree.core_isHeaded {document : Fragment} (hdocument : document.IsHeaded)
    (horigin : r.core.origin = .parsed document) (hbears : ∀ t ∈ r.nodes, t.Bears)
    (ht : t ∈ Forest.nodes r.children) : t.core.IsHeaded := by
  obtain ⟨b, hb, hchild⟩ : ∃ b ∈ r.nodes, t ∈ b.children := by
    rcases Forest.mem_or_mem_children r.children ht with hchild | ⟨b, hb, hchild⟩
    · exact ⟨r, r.self_mem_nodes, hchild⟩
    · exact ⟨b, Tree.mem_nodes_of_mem_children hb, hchild⟩
  have hheaded := Tree.isHeaded_of_mem_nodes hdocument horigin hbears t
    (Tree.mem_nodes_of_mem_children ht)
  rcases hbears b hb t hchild with hsynthetic | ⟨-, -, hkind⟩
  · exact ⟨by simp [Origin.isDocument, hsynthetic], by simp [hsynthetic]⟩
  · exact ⟨by simp [Origin.isDocument, hkind], fun hparsed => (hheaded hparsed).header_ne hkind⟩

end HttpdConf
