import HttpdConf.Proofs.Origins

/-!
# Nodes rendered alone

A node is rendered to the same text alone and in its place. How deep a node is nested is found
upwards, by counting the blocks around it, or downwards, level by level from the root, and the two
agree. And below the root of a document, a block that is rendered anew starts with a text of its
own, so what stands before it has no influence on what is inside. Only the separators between nodes
depend on the text so far.

## Main definitions

* `passedDown`: the depth that is handed down to what is inside nested blocks
* `Forest.separated`: the texts of some nodes, each after its separator

## Main results

* `Workspace.Sound.passedDown_eq`: what is handed down is the number of blocks around a node
* `Workspace.renders_run`: blocks and documents are rendered from their children rendered alone
-/

namespace HttpdConf

/-- The depth that is handed down through nested blocks, the outermost first. -/
def passedDown (depth : Nat) (around : List Tree) : Nat :=
  around.foldl (fun depth b => b.core.inner depth) depth

/-- The texts of some nodes after some text, each after what separates it from the text so far. -/
def Forest.separated (depth : Nat) (text : Tree → String) (before : Ending) : Forest → String
  | [] => ""
  | t :: rest =>
    let gap := separator depth before t.core.origin
    gap ++ text t ++ Forest.separated depth text ((before.after gap).after (text t)) rest

variable {w : Workspace} {r b t n : Tree} {f : Forest}

/-- A node alone is rendered at the depth that is found upwards from it. -/
theorem Forest.render_singleton (f : Forest) (t : Tree) :
    f.render [t] = t.renderAfter (f.depth t) .nothing := by
  simp [Forest.render, Forest.renderAll, Ending.after]

/-- Children whose texts do not depend on what is before them are rendered one by one. -/
theorem Forest.renderAfter_eq_separated {depth : Nat} {text : Tree → String} (before : Ending)
    (h : ∀ t ∈ f, ∀ before, t.renderAfter depth before = text t) :
    Forest.renderAfter depth before f = Forest.separated depth text before f := by
  induction f generalizing before with
  | nil => rfl
  | cons t f ih =>
    rw [List.forall_mem_cons] at h
    rw [Forest.renderAfter, Forest.separated]
    simp only [h.1]
    rw [ih _ h.2]

/-! ## Depths -/

/-- The children of a document are at the outermost level. -/
theorem Core.inner_of_isDocument {core : Core} (h : core.origin.isDocument = true) (depth : Nat) :
    core.inner depth = 0 := by
  rw [Core.inner, if_pos h]

theorem Core.inner_of_not_isDocument {core : Core} (h : core.origin.isDocument = false)
    (depth : Nat) : core.inner depth = depth + 1 := by
  rw [Core.inner, h, if_neg (by simp)]

/-- A way down from a node leads below it. -/
theorem IsPath.mem_nodes {way : List Tree} (h : IsPath (b :: way ++ [n])) :
    n ∈ Forest.nodes b.children := by
  induction way generalizing b with
  | nil => exact Forest.mem_nodes_of_mem (List.isChain_cons_cons.1 h).1
  | cons c way ih =>
    obtain ⟨hchild, h⟩ := List.isChain_cons_cons.1 h
    exact Forest.mem_nodes_of_below (Forest.mem_nodes_of_mem hchild) (ih h)

/-- The tree of the root of a document: nothing is around it, and no other node in it is a
document. -/
structure Workspace.HasRoot (w : Workspace) (r : Tree) : Prop where
  mem : r ∈ Forest.nodes w.forest
  lineage_eq : w.forest.lineage r.core = []
  isDocument : r.core.origin.isDocument = true
  isHeaded : ∀ t ∈ Forest.nodes r.children, t.core.IsHeaded

namespace Workspace.HasRoot

/-- A child is one level below its block. -/
theorem inner_depth (hr : w.HasRoot r) (hw : w.Sound) (hb : b ∈ r.nodes) (ht : t ∈ b.children) :
    b.core.inner (w.forest.depth b) = w.forest.depth t := by
  have hmem := (Forest.nodes_sublist _ hr.mem).subset hb
  have hlineage := hw.lineage_child hmem ht
  rw [Forest.depth, Forest.depth, hlineage, List.length_cons, Nat.add_sub_cancel]
  rw [r.nodes_eq] at hb
  rcases List.mem_cons.1 hb with rfl | hb
  · rw [Core.inner_of_isDocument hr.isDocument, hr.lineage_eq, List.length_nil]
  · rw [Core.inner_of_not_isDocument (hr.isHeaded b hb).isDocument_eq]
    -- the root is around the block
    exact Nat.sub_add_cancel (List.length_pos_of_mem (hw.mem_lineage_of_mem_nodes hr.mem hb))

/-- What is handed down from a block to a node inside is the depth found upwards from the node. -/
theorem passedDown_depth (hr : w.HasRoot r) (hw : w.Sound) {way : List Tree} (hb : b ∈ r.nodes)
    (hpath : IsPath (b :: way ++ [n])) :
    passedDown (w.forest.depth b) (b :: way) = w.forest.depth n := by
  induction way generalizing b with
  | nil =>
    have hchild : n ∈ b.children := (List.isChain_cons_cons.1 hpath).1
    exact hr.inner_depth hw hb hchild
  | cons c way ih =>
    obtain ⟨hchild, hpath⟩ := List.isChain_cons_cons.1 hpath
    have hdown := ih (Tree.mem_nodes_of_child hb hchild) hpath
    rwa [← hr.inner_depth hw hb hchild] at hdown

/-- The depth that is handed down from the root is the one found upwards, whatever depth the root
itself is rendered at. -/
theorem passedDown_eq (hr : w.HasRoot r) (hw : w.Sound) {way : List Tree} (depth : Nat)
    (hpath : IsPath (r :: way ++ [n])) : passedDown depth (r :: way) = w.forest.depth n := by
  have hdown := hr.passedDown_depth hw r.self_mem_nodes hpath
  rw [passedDown, List.foldl_cons, Core.inner_of_isDocument hr.isDocument] at hdown ⊢
  exact hdown

/-- A way down leads from the root to every other node. -/
theorem exists_way (hr : w.HasRoot r) (hw : w.Sound) (hn : n ∈ Forest.nodes r.children) :
    ∃ way, IsPath (r :: way ++ [n]) := by
  have hbelow : n ∈ r.nodes := Tree.mem_nodes_of_mem_children hn
  obtain ⟨above, hpath, hhead, hlineage⟩ := hw.exists_path hr.mem hr.lineage_eq hbelow
  cases above with
  | nil =>
    -- the root is around the node, so the way is not empty
    have hup := hw.mem_lineage_of_mem_nodes hr.mem hn
    rw [hlineage] at hup
    exact absurd hup List.not_mem_nil
  | cons b way =>
    obtain rfl : b = r := Option.some.inj hhead
    exact ⟨way, hpath⟩

/-! ## Texts -/

/-- Below the root, a node is rendered alone to what it is rendered to after any text. -/
theorem renderAfter_eq_render (hr : w.HasRoot r) (hn : n ∈ Forest.nodes r.children)
    (before : Ending) : n.renderAfter (w.forest.depth n) before = w.forest.render [n] := by
  rw [Forest.render_singleton]
  cases n with
  | comment core text => simp [Tree.renderAfter]
  | directive core statement => simp [Tree.renderAfter]
  | block core statement children => exact (hr.isHeaded _ hn).renderAfter_block before .nothing

/-- A block that is rebuilt is rendered from its children, each of them rendered alone. -/
theorem renderAfter_of_rebuilt (hr : w.HasRoot r) (hw : w.Sound) {core : Core}
    {statement : Statement} {children : Forest} (hb : .block core statement children ∈ r.nodes)
    (hrebuilt : core.isRebuilt = true) (before : Ending) :
    (Tree.block core statement children).renderAfter
        (w.forest.depth (.block core statement children)) before =
      core.opening statement ++
        Forest.separated (core.inner (w.forest.depth (.block core statement children)))
          (fun n => w.forest.render [n]) (before.after (core.opening statement)) children ++
        core.closing (w.forest.depth (.block core statement children)) statement := by
  rw [Tree.renderAfter_of_rebuilt hrebuilt]
  congr 2
  refine Forest.renderAfter_eq_separated _ fun t ht before => ?_
  have hbelow : t ∈ Forest.nodes r.children := by
    rw [r.nodes_eq] at hb
    rcases List.mem_cons.1 hb with rfl | hb
    · exact Forest.mem_nodes_of_mem ht
    · exact Forest.mem_nodes_of_child hb ht
  have hdepth : core.inner _ = w.forest.depth t := hr.inner_depth hw hb ht
  rw [hdepth]
  exact hr.renderAfter_eq_render hbelow before

end Workspace.HasRoot

namespace Workspace

/-- In any workspace that operations lead to, the root of a document has its tree. -/
theorem hasRoot_run {operations : List Operation} {spec : DocumentSpec} {document : Fragment}
    (hw : empty.run operations = w) (hspec : spec.assemble = .ok document)
    (hr : r ∈ Forest.nodes w.forest) (horigin : r.core.origin = .parsed document)
    (hroot : w.forest.lineage r.core = []) : w.HasRoot r := by
  obtain ⟨hheaded, hkind⟩ := spec.isHeaded_of_assemble hspec
  have hbears : ∀ t ∈ Forest.nodes w.forest, t.Bears :=
    hw ▸ bears_run Sound.empty (by simp [empty]) operations
  refine ⟨hr, hroot, by rw [horigin, Origin.isDocument_parsed hkind], fun t ht => ?_⟩
  exact Tree.core_isHeaded hheaded horigin
    (fun t ht => hbears t ((Forest.nodes_sublist _ hr).subset ht)) ht

/-- After any operations, below the live root of a document that was put together from files: a way
down leads from the root to every node, the depth handed down on it is the one found upwards from
the node, and there the node is rendered after any text to what it is rendered to alone. So a block
that is not copied is rendered from its children rendered alone, and the document to its statements,
each after a separator, and the gap after the last one. -/
theorem renders_run {operations : List Operation} {spec : DocumentSpec} {document : Fragment}
    (hw : empty.run operations = w) (hspec : spec.assemble = .ok document)
    (hr : r ∈ Forest.nodes w.forest) (hblock : r.isBlock = true)
    (horigin : r.core.origin = .parsed document) (hroot : w.forest.lineage r.core = []) :
    (∀ n ∈ Forest.nodes r.children, ∃ way, IsPath (r :: way ++ [n])) ∧
      (∀ way n, IsPath (r :: way ++ [n]) → ∀ depth before,
        passedDown depth (r :: way) = w.forest.depth n ∧
          n.renderAfter (passedDown depth (r :: way)) before = w.forest.render [n]) ∧
      (∀ core statement children, .block core statement children ∈ r.nodes →
        core.isRebuilt = true → ∀ before,
          let depth := w.forest.depth (.block core statement children)
          (Tree.block core statement children).renderAfter depth before =
            core.opening statement ++
              Forest.separated (core.inner depth) (fun n => w.forest.render [n])
                (before.after (core.opening statement)) children ++
              core.closing depth statement) ∧
      w.forest.render [r] =
        Forest.separated 0 (fun n => w.forest.render [n]) .nothing r.children ++
          document.slice document.trailing := by
  have hsound : w.Sound := hw ▸ Sound.empty.run operations
  have hhas := hasRoot_run hw hspec hr horigin hroot
  refine ⟨fun n hn => hhas.exists_way hsound hn, fun way n hpath depth before => ?_,
    fun core statement children hb hrebuilt before =>
      hhas.renderAfter_of_rebuilt hsound hb hrebuilt before, ?_⟩
  · rw [hhas.passedDown_eq hsound depth hpath]
    exact ⟨rfl, hhas.renderAfter_eq_render hpath.mem_nodes before⟩
  · obtain ⟨core, statement, children, rfl⟩ := Tree.exists_of_isBlock hblock
    have hdocument : core.origin.isDocument = true := hhas.isDocument
    have hrebuilt : core.isRebuilt = true := by rw [Core.isRebuilt, hdocument]; rfl
    have hfragment : core.origin.fragment = document := by
      rw [show core.origin = .parsed document from horigin]; rfl
    rw [Forest.render_singleton,
      hhas.renderAfter_of_rebuilt hsound (Tree.self_mem_nodes _) hrebuilt, Core.opening,
      if_pos hdocument, Core.inner_of_isDocument hdocument, Core.closing, if_pos hdocument,
      hfragment, String.empty_append]
    rfl

/-- A new block with a directive inside, in the inner one of two blocks that were read. -/
theorem renders_run_nested :
    ∃ document w r n way,
      (DocumentSpec.file ⟨⟨"site.conf"⟩, "<A>\n    <B x>\n    </B>\n</A>\n"⟩ []).assemble =
        .ok document ∧
      w = empty.run [
        .construct ⟨none, none, false, some (.parsed document), none⟩ (.block "" []) true,
        .edit 0 (.add 2 (.block "C" []) none), .edit 0 (.add 3 (.directive "D" ["1"]) none)] ∧
      w.forest.find? 0 = some r ∧ w.forest.find? 3 = some n ∧ IsPath (r :: way ++ [n]) ∧
      passedDown 0 (r :: way) = 2 ∧
      w.forest.render [n] = "<C>\n            D 1\n        </C>" ∧
      (∀ before, n.renderAfter 2 before = w.forest.render [n]) ∧
      w.forest.render [r] =
        Forest.separated 0 (fun n => w.forest.render [n]) .nothing r.children ++
          document.slice document.trailing := by
  generalize hspec : DocumentSpec.file _ _ = spec
  have hfacts : (spec.assemble.toOption.any fun document =>
      let w := empty.run [
        .construct ⟨none, none, false, some (.parsed document), none⟩ (.block "" []) true,
        .edit 0 (.add 2 (.block "C" []) none), .edit 0 (.add 3 (.directive "D" ["1"]) none)]
      (w.forest.find? 0).any fun r => (w.forest.find? 3).any fun n =>
        document.source.path.text != "" && (r.isBlock && ((w.forest.lineage r.core).isEmpty &&
          ((Forest.nodes r.children).any (·.id == n.id) && (w.forest.depth n == 2 &&
            w.forest.render [n] == "<C>\n            D 1\n        </C>"))))) = true := by
    rw [← hspec]
    decide +kernel
  obtain ⟨document, hassemble, hfacts⟩ := (Option.any_eq_true ..).1 hfacts
  simp only at hfacts
  generalize hw : empty.run _ = w at hfacts
  obtain ⟨r, hr, hfacts⟩ := (Option.any_eq_true ..).1 hfacts
  obtain ⟨n, hn, hfacts⟩ := (Option.any_eq_true ..).1 hfacts
  simp only [Bool.and_eq_true, bne_iff_ne, List.isEmpty_iff, List.any_eq_true, beq_iff_eq]
    at hfacts
  obtain ⟨hpath, hblock, hroot, ⟨x, hx, hid⟩, hdepth, htext⟩ := hfacts
  obtain ⟨hrnode, hzero⟩ := Forest.mem_nodes_of_find? hr
  have htidy := (hw ▸ Sound.empty.run _ : w.Sound).tidy
  -- the root is the one of the document that was opened first
  have hopened := empty.perform_construct hpath none
  have hsound := Sound.empty.opened document Policy.default
  have hlater : (empty.opened document Policy.default).2.Succeeds w := by
    rw [← hw, run, List.foldl_cons, hopened]
    exact .run hsound _
  have horigin : r.core.origin = .parsed document :=
    hlater.origin_eq hsound (mem_nodes_opened ..) hrnode hzero
  obtain rfl : x = n := htidy.eq_of_id_eq (Forest.mem_nodes_of_below hrnode hx)
    (Forest.mem_nodes_of_find? hn).1 hid
  obtain ⟨hways, halone, -, hwhole⟩ := renders_run hw (eq_ok_of_toOption hassemble) hrnode hblock
    horigin hroot
  obtain ⟨way, hpath⟩ := hways x hx
  have hdown : passedDown 0 (r :: way) = 2 := ((halone way x hpath 0 .nothing).1).trans hdepth
  exact ⟨document, w, r, x, way, eq_ok_of_toOption hassemble, hw.symm, hr, hn, hpath, hdown, htext,
    fun before => hdown ▸ (halone way x hpath 0 before).2, hwhole⟩

end Workspace

end HttpdConf
