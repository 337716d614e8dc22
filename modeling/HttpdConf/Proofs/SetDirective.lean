import HttpdConf.Proofs.Assignments
import HttpdConf.Proofs.Writing

/-!
# Setting directives in a file

The command that sets a directive gives new parameters to all directives of a name that are in
force in a block, and writes the file. What is written is read back as the tree that was rendered:
the old document with the new parameters. A second run then finds the same directives, which have
these parameters already.

## Main results

* `Directory.exists_write`: a file that can be read can be written, and is then read back
* `runSet_twice`: the command, and the same command once more
-/

namespace HttpdConf

/-! ## Writing to a directory -/

namespace Directory

variable {d : Directory} {path : Path} {place other here names : List String} {content : Content}

/-- What stands elsewhere stays when something is put at a place. -/
theorem get?_put_of_ne (h : other ≠ place) (entry : Entry) :
    (d.put place entry).get? other = d.get? other := by
  have hlookup : ∀ entries : List (List String × Entry),
      (entries.filter fun e => e.1 != place).lookup other = entries.lookup other := by
    intro entries
    induction entries with
    | nil => rfl
    | cons e entries ih =>
      obtain ⟨q, e⟩ := e
      by_cases hq : q = place
      · have hother : (other == place) = false := beq_false_of_ne h
        simp [hq, List.lookup_cons, hother, ih]
      · simp [hq, List.lookup_cons, ih]
  have hself : (other == place) = false := beq_false_of_ne h
  simp only [get?, put, List.lookup_cons, hself, hlookup]

theorem get?_put_self (h : d.get? place = some (.file content)) (entry : Entry) :
    (d.put place entry).get? place = some entry := by
  unfold get? at h ⊢
  split at h
  · simp at h
  · rename_i houter
    rw [if_neg houter, put, List.lookup_cons, beq_self_eq_true]

/-- A path leads to a place where a file stands. When another file is put there, the path leads to
that one: the directories on the way stand elsewhere. -/
theorem followFrom_put (h : d.followFrom here names = .ok (place, content)) :
    d.get? place = some (.file content) ∧
      ∀ new, (d.put place (.file new)).followFrom here names = .ok (place, new) := by
  induction here, names using followFrom.induct d with
  | case1 here => simp [followFrom] at h
  | case2 here rest ih => exact ih (by rwa [followFrom] at h)
  | case3 here rest ih => exact ih (by rwa [followFrom] at h)
  | case4 here rest ih => exact ih (by rwa [followFrom] at h)
  | case5 here name rest hempty hdot hdots hsize =>
    simp [followFrom.eq_5 d here name rest hempty hdot hdots, hsize] at h
  | case6 here name rest hempty hdot hdots hsize hget =>
    simp [followFrom.eq_5 d here name rest hempty hdot hdots, hsize, hget] at h
  | case7 here name rest hempty hdot hdots hsize hget ih =>
    simp only [followFrom.eq_5 d here name rest hempty hdot hdots, hsize, hget, if_false] at h
    obtain ⟨hplace, hnew⟩ := ih h
    refine ⟨hplace, fun new => ?_⟩
    -- a directory is on the way, so it is not the file that is replaced
    have hne : name :: here ≠ place := by
      rintro rfl
      simp [hget] at hplace
    rw [followFrom.eq_5 _ here name rest hempty hdot hdots, if_neg hsize, get?_put_of_ne hne, hget]
    exact hnew new
  | case8 here name rest hempty hdot hdots hsize content' hget hrest =>
    simp only [followFrom.eq_5 d here name rest hempty hdot hdots, hsize, hget, hrest, if_true,
      if_false] at h
    obtain ⟨rfl, rfl⟩ := Prod.mk.inj (Except.ok.inj h)
    refine ⟨hget, fun new => ?_⟩
    rw [followFrom.eq_5 _ here name rest hempty hdot hdots, if_neg hsize, get?_put_self hget]
    simp [hrest]
  | case9 here name rest hempty hdot hdots hsize content' hget hrest =>
    simp [followFrom.eq_5 d here name rest hempty hdot hdots, hsize, hget, hrest] at h

/-- A file that can be read can be written, and is then read back. -/
theorem exists_write {text : String} (h : d.read path = .ok text) (new : String) :
    ∃ d', d.write path new = .ok d' ∧ d'.read path = .ok new := by
  cases hfollow : d.follow path with
  | error e => simp [read, hfollow, bind, Except.bind] at h
  | ok found =>
    obtain ⟨place, content⟩ := found
    refine ⟨d.put place (.file (.text new)), by simp [write, hfollow], ?_⟩
    have hnew : (d.put place (.file (.text new))).follow path = .ok (place, .text new) := by
      unfold follow at hfollow ⊢
      split at hfollow
      · simp at hfollow
      · rename_i hnul
        split at hfollow
        · simp at hfollow
        · rename_i hsize
          split at hfollow
          · simp at hfollow
          · rename_i hempty
            rw [if_neg hnul, if_neg hsize, if_neg hempty]
            exact (followFrom_put hfollow).2 _
    simp [read, hnew, bind, Except.bind, Content.decode]

/-- What can be read has a name. -/
theorem text_ne_of_read {text : String} (h : d.read path = .ok text) : path.text ≠ "" := by
  intro hempty
  simp [read, follow, hempty, maxPathSize, bind, Except.bind] at h

end Directory

/-! ## Documents that were just opened -/

section

variable {file : Path} {text name : String} {document : Fragment} {policy : Policy}
  {parameters : List String} {root t u scope : Tree} {w : Workspace} {block : Option String}
  {message : String} {d : Directory}

mutual
/-- What was read keeps its arguments. -/
theorem Tree.endsPlainly_ofFragment (k : Kinship) (ancestor next : NodeId) (f : Fragment) :
    ∀ u ∈ Forest.nodes (Tree.ofFragment k ancestor next f).1.toList, u.endsPlainly = true := by
  match f with
  | ⟨source, .document, span, leading, header, trailing, footer, children⟩ =>
    simp [Tree.ofFragment]
  | ⟨source, .comment text, span, leading, header, trailing, footer, children⟩ =>
    simp [Tree.ofFragment, Tree.nodes, Tree.endsPlainly]
  | ⟨source, .directive name arguments, span, leading, header, trailing, footer, children⟩ =>
    simp [Tree.ofFragment, Tree.nodes, Tree.endsPlainly, Core.keeps, Kinship.core, Origin.parsed,
      Fragment.arguments?]
  | ⟨source, .block name arguments, span, leading, header, trailing, footer, children⟩ =>
    intro u hu
    simp only [Tree.ofFragment, Option.toList_some, Forest.nodes_cons, Forest.nodes_nil, Tree.nodes,
      List.append_nil, List.mem_cons] at hu
    rcases hu with rfl | hu
    · rfl
    · exact Forest.endsPlainly_ofFragments k next (next + 1) children u hu

theorem Forest.endsPlainly_ofFragments (k : Kinship) (ancestor next : NodeId)
    (fs : List Fragment) :
    ∀ u ∈ Forest.nodes (Forest.ofFragments k ancestor next fs).1, u.endsPlainly = true := by
  match fs with
  | [] => simp [Forest.ofFragments]
  | f :: fs =>
    intro u hu
    rw [Forest.ofFragments_cons, Forest.nodes_append, List.mem_append] at hu
    rcases hu with hu | hu
    · exact Tree.endsPlainly_ofFragment k ancestor next f u hu
    · exact Forest.endsPlainly_ofFragments k ancestor _ fs u hu
end

mutual
/-- Directives that were read have names. -/
theorem Layout.Mirrors.name_ne {source : SourceFile} (l : Layout) {t : Tree}
    (h : l.Mirrors source t) (hw : Written l.own) :
    ∀ u ∈ t.nodes, u.isDirective = true → u.name ≠ "" := by
  match l with
  | .comment gap text =>
    rw [Layout.Mirrors] at h
    obtain ⟨core, rfl⟩ := h.2
    simp [Tree.nodes, Tree.isDirective]
  | .directive gap name arguments =>
    rw [Layout.Mirrors] at h
    obtain ⟨core, statement, rfl, hname, -⟩ := h.2
    have hword : (Chunk.word name).IsLexical := hw.isLexical _ (by simp [Layout.own])
    intro u hu _ hempty
    rw [List.mem_singleton.1 hu] at hempty
    -- a word has at least one character
    have hnil : name = "" := hname.symm.trans hempty
    exact hword.text_ne_nil (by rw [Chunk.word_text, hnil]; rfl)
  | .block gap name arguments inside trailing closing blanks =>
    rw [Layout.Mirrors] at h
    obtain ⟨core, statement, children, rfl, -, -, hinside⟩ := h.2
    rw [Layout.own] at hw
    obtain ⟨-, hbody, -⟩ := Written.append_iff.1 hw
    obtain ⟨hown, -, -⟩ := Written.append_iff.1 hbody
    intro u hu hdirective
    rw [Tree.nodes] at hu
    rcases List.mem_cons.1 hu with rfl | hu
    · simp [Tree.isDirective] at hdirective
    · exact Layout.MirrorsAll.name_ne inside hinside hown u hu hdirective

theorem Layout.MirrorsAll.name_ne {source : SourceFile} (ls : List Layout) {f : Forest}
    (h : Layout.MirrorsAll source ls f) (hw : Written (Layout.ownAll ls)) :
    ∀ u ∈ Forest.nodes f, u.isDirective = true → u.name ≠ "" := by
  match ls with
  | [] =>
    rw [Layout.MirrorsAll] at h
    simp [h]
  | l :: ls =>
    rw [Layout.MirrorsAll] at h
    obtain ⟨t, rest, rfl, ht, hrest⟩ := h
    rw [Layout.ownAll_cons] at hw
    obtain ⟨-, hown, -⟩ := Written.append_iff.1 hw
    obtain ⟨hl, hlater, -⟩ := Written.append_iff.1 hown
    intro u hu
    rw [Forest.nodes_cons, List.mem_append] at hu
    rcases hu with hu | hu
    · exact Layout.Mirrors.name_ne l ht hl u hu
    · exact Layout.MirrorsAll.name_ne ls hrest hlater u hu
end

/-- Directives of a legible page have names. -/
theorem Page.MirroredBy.name_ne {source : SourceFile} {p : Page}
    (h : p.MirroredBy source document t.forget) (hp : p.Legible) :
    ∀ u ∈ t.nodes, u.isDirective = true → u.name ≠ "" := by
  intro u hu hdirective
  obtain ⟨core, children, standing, htree, -, hmirrors⟩ := h
  have hmem : u.forget ∈ t.forget.nodes := by
    rw [Tree.nodes_forget]
    exact List.mem_map_of_mem hu
  have hdirective' : u.forget.isDirective = true := by
    cases u <;> simp_all [Tree.isDirective, Tree.forget, Tree.mapStatements]
  have hw := hp.written
  rw [Page.chunks] at hw
  rw [htree, Tree.nodes] at hmem
  rw [← Tree.forget_name]
  rcases List.mem_cons.1 hmem with heq | hmem
  · rw [heq] at hdirective'
    simp [Tree.isDirective] at hdirective'
  · exact Layout.MirrorsAll.name_ne _ hmirrors (Written.append_iff.1 hw).1 _ hmem hdirective'

/-- What a document has that was just opened. -/
structure Tree.IsOpened (policy : Policy) (w : Workspace) (t : Tree) : Prop where
  tended : w.Tended t
  clean : t.core.dirty = false
  isUnder : t.IsUnder policy
  endsPlainly : ∀ u ∈ t.nodes, u.endsPlainly = true

/-- Numbers are given once in a document. -/
theorem Tree.IsOpened.eq_of_id_eq (h : t.IsOpened policy w) {u v : Tree} (hu : u ∈ t.nodes)
    (hv : v ∈ t.nodes) (hid : u.id = v.id) : u = v :=
  h.tended.tidy.eq_of_id_eq (h.tended.mem_nodes hu) (h.tended.mem_nodes hv) hid

theorem Tree.isOpened_of_openDocument
    (h : Workspace.empty.openDocument document policy = .ok (root, w)) :
    root.IsOpened policy w := by
  obtain ⟨htended, hsheet⟩ := Sheet.follows_opened h
  have hforget : root.forget = (Sheet.opened document policy).tree := by rw [hsheet]
  have hmem : ∀ u ∈ root.nodes, u.forget ∈ (Sheet.opened document policy).tree.nodes := by
    intro u hu
    rw [← hforget, Tree.nodes_forget]
    exact List.mem_map_of_mem hu
  refine ⟨htended, ?_, ?_, fun u hu => ?_⟩
  · rw [← Tree.forget_core, hforget]
    rfl
  · obtain rfl : root = (Workspace.empty.opened document policy).1 :=
      congrArg Prod.fst (Workspace.eq_opened h)
    exact Workspace.isUnder_opened Workspace.empty document policy
  · have hu' := hmem u hu
    rw [Sheet.opened, Tree.nodes] at hu'
    rw [← Tree.endsPlainly_forget]
    rcases List.mem_cons.1 hu' with heq | hu'
    · rw [heq]
      rfl
    · exact Forest.endsPlainly_ofFragments ⟨policy, 0⟩ 0 1 document.children u.forget hu'

/-! ## Lines -/

theorem Text.eq_backslash_of_toLower {c : Char} (h : c.toLower = '\\') : c = '\\' := by
  unfold Char.toLower at h
  split at h
  · rename_i hcapital
    have hlow : 65 ≤ c.val.toNat := UInt32.le_iff_toNat_le.1 hcapital.1
    have hupper : c.val.toNat ≤ 90 := UInt32.le_iff_toNat_le.1 hcapital.2
    have hvalue : (c.val + ('a'.val - 'A'.val)).toNat = 92 := congrArg (fun c => c.val.toNat) h
    have hsum : (c.val + ('a'.val - 'A'.val)).toNat = c.val.toNat + 32 := by
      rw [UInt32.toNat_add]
      exact Nat.mod_eq_of_lt (show c.val.toNat + 32 < 4294967296 by omega)
    omega
  · exact h

/-- Whether a line ends in a backslash does not depend on how its name is spelled. -/
theorem Statement.line_getLast?_of_sameName {a b : String} (h : Text.sameName a b = true)
    (parameters : List String) (standing standing' : Option Bool)
    (hline : (Statement.line ⟨b, parameters, standing⟩).toList.getLast? ≠ some '\\') :
    (Statement.line ⟨a, parameters, standing'⟩).toList.getLast? ≠ some '\\' := by
  rw [textOf_line, textOf_cons, Chunk.word_text, List.getLast?_append] at hline ⊢
  cases hlast : (textOf (parameterChunks parameters)).getLast? with
  | some c => simpa [hlast] using hline
  | none =>
    rw [hlast, Option.none_or] at hline
    rw [Option.none_or]
    intro hback
    -- the names have the same last letter apart from case, and a backslash has no case
    have hfolded : (Text.folded b).getLast? = some '\\' := by
      rw [← Text.sameName_iff.1 h, Text.folded, List.getLast?_map, hback]
      rfl
    rw [Text.folded, List.getLast?_map] at hfolded
    obtain ⟨c, hc, hlower⟩ := Option.map_eq_some_iff.1 hfolded
    rw [Text.eq_backslash_of_toLower hlower] at hc
    exact hline hc

/-! ## Runs of the command -/

theorem run_loadTree (hread : d.read file = .ok text)
    (hdocument : Fragment.read ⟨file, text⟩ = .ok document)
    (hopen : Workspace.empty.openDocument document policy = .ok (root, w)) :
    Id.run ((loadTree FileAccess.ofDirectory file policy).run d) = (.ok (root, w), d) := by
  have hload : Id.run ((loadDocument FileAccess.ofDirectory file).run d) = (.ok document, d) := by
    simp only [loadDocument, FileAccess.ofDirectory, StateT.run_bind, Id.run_bind]
    simp [hread, hdocument]
  rw [loadTree, StateT.run_bind, Id.run_bind, hload]
  simp only [hopen, Except.mapError]
  rfl

/-- Where directives are set without an error, the document is written if it has changes. -/
theorem run_runSet {w' : Workspace} {root' : Tree} (hread : d.read file = .ok text)
    (hdocument : Fragment.read ⟨file, text⟩ = .ok document)
    (hopen : Workspace.empty.openDocument document policy = .ok (root, w))
    (hscope : root.scope? block = some scope)
    (hset : w.setDirective scope name parameters = .ok w')
    (hroot : w'.forest.find? root.id = some root') :
    Id.run ((runSet .ofDirectory policy file name parameters block message false).run d) =
      if root'.core.dirty then
        Id.run ((runWrite .ofDirectory root' (w'.save root' message).2 false).run d)
      else (.ok (file.text ++ ": already up to date\n"), d) := by
  rw [runSet, StateT.run_bind, Id.run_bind, run_loadTree hread hdocument hopen]
  simp only [hscope, hset, hroot, Option.getD_some, Workspace.save]
  by_cases hdirty : root'.core.dirty = true
  · simp only [hdirty, if_true]
  · simp only [hdirty]
    rfl

/-- A file that can be written takes the text of its nodes. -/
theorem call_ofDirectory {f : Forest} {nodes : List Tree} {d' : Directory}
    (h : d.write file (f.render nodes) = .ok d') :
    (FileAccess.writer .ofDirectory).call f file nodes d = (.ok (), d') := by
  rw [FileAccess.writer, Writer.call_ofText]
  simp [FileAccess.ofDirectory, h, Except.mapError]

/-- A changed document of one file is written to a file that can be read. -/
theorem run_runWrite (hw : w.Tended root) (hflag : ∀ u ∈ root.nodes, u.IsFlagged)
    (hpath : ∀ u ∈ root.nodes, u.core.path = file)
    (hdocument : root.core.origin.isDocument = true) (hdirty : root.core.dirty = true)
    (hread : d.read file = .ok text) :
    ∃ outcome d', Id.run ((runWrite .ofDirectory root w false).run d) = (outcome, d') ∧
      outcome.code = 0 ∧ d'.read file = .ok (w.forest.render [root]) := by
  have hfiles := Tree.unsavedFiles_eq hflag hpath hdirty
  have hroots : root.fileRoots file = [root] := Tree.fileRoots_of_path (by
    rw [hpath root root.self_mem_nodes, Path.beq_refl])
  have hnodes : w.fileNodes root file = [root] := by
    rw [Workspace.fileNodes, hw.root_eq, hroots]
  obtain ⟨d₁, hwrite, hback⟩ := d.exists_write hread (w.forest.render [root])
  have hcall := call_ofDirectory hwrite
  rw [runWrite, if_neg (by simp), StateT.run_bind, Id.run_bind]
  generalize hend : Id.run ((w.writeUnsaved (FileAccess.writer .ofDirectory) root).run d) = out
  obtain ⟨⟨result, w'⟩, d'⟩ := out
  cases Workspace.writes_writeUnsaved hend with
  | idle blocks hidle => simp [hfiles] at hidle
  | rootGone blocks hnone hgone =>
    rw [hw.root_eq, hdocument] at hgone
    simp at hgone
  | failed blocks hroot hfails =>
    -- there is one file, and it is taken
    obtain ⟨before, path, after, s₁, heq, htakes, hfail⟩ := hfails
    rw [hfiles] at heq
    cases before with
    | nil =>
      obtain ⟨rfl, -⟩ := List.cons.inj heq
      cases htakes
      rw [hnodes, hcall] at hfail
      simp at hfail
    | cons p before => simp at heq
  | written blocks hsome hroot htakes =>
    rw [hfiles] at htakes
    cases htakes with
    | cons htaken hrest =>
      cases hrest
      rw [hnodes, hcall] at htaken
      obtain ⟨-, rfl⟩ := Prod.mk.inj htaken
      exact ⟨_, _, rfl, rfl, hback⟩

/-- A document is opened with what its text says. -/
theorem shape_of_openDocument (hdocument : Fragment.read ⟨file, text⟩ = .ok document)
    (hopen : Workspace.empty.openDocument document policy = .ok (root, w)) :
    root.shape = document.shape := by
  obtain ⟨p, -, -, hshows⟩ := Fragment.exists_page_of_read hdocument
  obtain ⟨-, hsheet⟩ := Sheet.follows_opened hopen
  have hforget : root.forget = (Sheet.opened document policy).tree := by rw [hsheet]
  rw [← Tree.shape_forget, hforget, Sheet.opened, Tree.shape,
    (Layout.ShowsAll.mirrors _ _ _ _ hshows.children).2, hshows.shape]

/-- Where all directives that are found have the parameters, the file is up to date. -/
theorem run_runSet_of_parameters (hread : d.read file = .ok text)
    (hdocument : Fragment.read ⟨file, text⟩ = .ok document)
    (hopen : Workspace.empty.openDocument document policy = .ok (root, w))
    (hscope : root.scope? block = some scope) (hfound : scope.findDirectives name true ≠ [])
    (hall : ∀ t ∈ scope.findDirectives name true, t.parameters = parameters) :
    Id.run ((runSet .ofDirectory policy file name parameters block message false).run d) =
      (.ok (file.text ++ ": already up to date\n"), d) := by
  have hopened := Tree.isOpened_of_openDocument hopen
  have hset : w.setDirective scope name parameters = .ok w := by
    have hnone : (scope.findDirectives name true).filter (·.parameters != parameters) = [] := by
      rw [List.filter_eq_nil_iff]
      intro t ht
      simp [hall t ht]
    rw [Workspace.setDirective_eq w hfound, hnone]
    rfl
  have hroot : w.forest.find? root.id = some root := by
    rw [hopened.tended.first]
    exact hopened.tended.find?_root
  rw [run_runSet hread hdocument hopen hscope hset hroot, hopened.clean]
  rfl

end

/-! ## What setting parameters leaves -/

section

variable {document : Fragment} {edits : List Edit} {s s' : Sheet} {t u r : Tree}
  {ids : List NodeId} {name : String} {parameters : List String}

/-- Edits keep the nodes of a document flagged and grown. -/
theorem Tree.IsKept.run (hs : s.tree.IsKept document)
    (hrun : edits.foldlM Sheet.edit s = some s') : s'.tree.IsKept document :=
  Sheet.kept_run (P := fun s => s.tree.IsKept document) (fun e _ _ _ hm hedit =>
    ⟨(e.keeps_isGrown document).isDocumentWith hm.isDocumentWith hedit,
      Sheet.isFlagged_edit hm.isFlagged hedit⟩) hs hrun

/-- A run of edits that do not only look leaves changes behind. -/
theorem Sheet.dirty_run (hne : edits ≠ []) (hedits : ∀ blocks, Edit.look blocks ∉ edits)
    (hrun : edits.foldlM Sheet.edit s = some s') : s'.tree.core.dirty = true := by
  obtain ⟨before, e, rfl⟩ : ∃ before e, edits = before ++ [e] :=
    ⟨_, _, (List.dropLast_append_getLast hne).symm⟩
  rw [List.foldlM_append] at hrun
  obtain ⟨m, -, hrun⟩ := Option.bind_eq_some_iff.1 hrun
  rw [List.foldlM_cons] at hrun
  obtain ⟨m', hedit, hend⟩ := Option.bind_eq_some_iff.1 hrun
  obtain rfl : m' = s' := Option.some.inj hend
  rcases Sheet.look_or_dirty hedit with ⟨blocks, rfl⟩ | hdirty
  · exact absurd (by simp) (hedits blocks)
  · exact hdirty

mutual
theorem Tree.shape_settled (t : Tree) : t.settled.shape = t.shape := by
  match t with
  | .comment core text => rfl
  | .directive core statement => rfl
  | .block core statement children =>
    rw [Tree.settled_block, Tree.shape, Tree.shape, Forest.shapes_settled children]

theorem Forest.shapes_settled (f : Forest) :
    Forest.shapes (f.map Tree.settled) = Forest.shapes f := by
  match f with
  | [] => rfl
  | t :: f =>
    rw [List.map_cons, Forest.shapes, Forest.shapes, Tree.shape_settled t,
      Forest.shapes_settled f]
end

theorem Tree.shape_bare (t : Tree) : t.bare.shape = t.shape := by
  rw [Tree.bare, Tree.shape_forget, Tree.shape_settled]

theorem Tree.bare_assign : (t.assign ids parameters).bare = t.bare.assign ids parameters := by
  have hsettled : (t.assign ids parameters).settled = t.settled.assign ids parameters :=
    (Tree.mapStatements_mapCores (k := Core.clean) (fun core => rfl) t).symm
  rw [Tree.bare, hsettled, Tree.bare, Tree.forget, Tree.forget, Tree.assign, Tree.assign,
    Tree.mapStatements_mapStatements, Tree.mapStatements_mapStatements]
  refine Tree.mapStatements_congr _ fun u _ s _ => ?_
  split <;> rfl

/-- Nodes that have the parameters already can be left out of an assignment. -/
theorem Tree.assign_filter (hnodup : (t.nodes.map Tree.id).Nodup) {ts : List Tree}
    (hts : ∀ u ∈ ts, u ∈ t.nodes) :
    t.assign ((ts.filter (·.parameters != parameters)).map Tree.id) parameters =
      t.assign (ts.map Tree.id) parameters := by
  refine Tree.mapStatements_congr t fun u hu s hs => ?_
  have hparameters : u.parameters = s.parameters := by
    rw [Tree.parameters, hs, Option.map_some, Option.getD_some]
  have hmem : ∀ v ∈ ts, v.id = u.id → v = u := fun v hv hid =>
    List.inj_on_of_nodup_map hnodup (hts v hv) hu hid
  by_cases hin : u ∈ ts
  · have hall : (ts.map Tree.id).contains u.core.id = true :=
      List.contains_iff_mem.2 (List.mem_map_of_mem hin)
    rw [hall, if_pos rfl]
    split
    · rfl
    · -- the node was left out, so it has the parameters
      rename_i hout
      have hsame : u.parameters = parameters := by
        by_contra hne
        exact hout (List.contains_iff_mem.2 (List.mem_map_of_mem
          (List.mem_filter.2 ⟨hin, by simpa using hne⟩)))
      rw [← hsame, hparameters]
  · have hnone : ∀ us : List Tree, (∀ v ∈ us, v ∈ ts) →
        (us.map Tree.id).contains u.core.id = false := by
      intro us hus
      rw [Bool.eq_false_iff, Ne, List.contains_iff_mem]
      intro hid
      obtain ⟨v, hv, hvid⟩ := List.mem_map.1 hid
      exact hin (hmem v (hus v hv) hvid ▸ hus v hv)
    rw [hnone _ fun v hv => (List.mem_filter.1 hv).1, hnone ts fun v hv => hv]

/-- The nodes of an assignment are those of the tree, with new parameters. -/
theorem Tree.exists_of_bare_assign (h : r.bare = t.bare.assign ids parameters) (hu : u ∈ r.nodes) :
    ∃ v ∈ t.nodes, u.bare = v.bare.assign ids parameters := by
  have hmem : u.bare ∈ r.bare.nodes := by
    rw [Tree.nodes_bare]
    exact List.mem_map_of_mem hu
  rw [h, Tree.nodes_assign, Tree.nodes_bare, List.map_map] at hmem
  obtain ⟨v, hv, heq⟩ := List.mem_map.1 hmem
  exact ⟨v, hv, heq.symm⟩

theorem Tree.endsPlainly_bare (t : Tree) : t.bare.endsPlainly = t.endsPlainly := by
  rw [Tree.bare, Tree.endsPlainly_forget]
  cases t <;> rfl

/-- If the lines that get new parameters do not end in a backslash, no line that is written anew
does. -/
theorem Tree.endsPlainly_assign (hends : t.endsPlainly = true)
    (hline : t.id ∈ ids → t.isDirective = true →
      (Statement.line ⟨t.name, parameters, none⟩).toList.getLast? ≠ some '\\') :
    (t.assign ids parameters).endsPlainly = true := by
  cases t with
  | directive core statement =>
    rw [Tree.assign, Tree.mapStatements]
    split
    · rename_i hid
      have hback := hline (List.contains_iff_mem.1 hid) rfl
      have hback' : (Statement.line { statement with parameters }).toList.getLast? ≠ some '\\' :=
        hback
      simp [Tree.endsPlainly, hback']
    · exact hends
  | _ => rfl

end

/-! ## The command, and the same command once more -/

section

variable {file : Path} {text name : String} {document : Fragment} {policy : Policy}
  {parameters : List String} {root scope : Tree} {w : Workspace} {block : Option String}
  {message : String} {d : Directory}

/-- What is left of a document when directives were set in it. -/
theorem exists_setDirective (hdocument : Fragment.read ⟨file, text⟩ = .ok document)
    (hopen : Workspace.empty.openDocument document policy = .ok (root, w))
    (hscope : root.scope? block = some scope) (hfound : scope.findDirectives name true ≠ [])
    (hparameters : ∀ p ∈ parameters, isPlainParameter p = true)
    (hline : (Statement.line ⟨name, parameters, none⟩).toList.getLast? ≠ some '\\') :
    ∃ w' r', w.setDirective scope name parameters = .ok w' ∧ w'.Tended r' ∧
      r'.shape =
        (root.assign ((scope.findDirectives name true).map Tree.id) parameters).shape ∧
      r'.forget.IsKept document ∧
      ((∃ t ∈ scope.findDirectives name true, t.parameters ≠ parameters) →
        r'.core.dirty = true) ∧
      ∃ document', Fragment.read ⟨file, w'.forest.render [r']⟩ = .ok document' ∧
        document'.shape = r'.shape := by
  have hopened := Tree.isOpened_of_openDocument hopen
  obtain ⟨p, hp, -, hshows⟩ := Fragment.exists_page_of_read hdocument
  obtain ⟨-, hsheet⟩ := Sheet.follows_opened hopen
  have hforget : root.forget = (Sheet.opened document policy).tree := by rw [hsheet]
  have hmirrored := hshows.mirroredBy_opened policy
  rw [← hforget] at hmirrored
  -- only directives with other parameters are set
  set ds := (scope.findDirectives name true).filter (·.parameters != parameters) with hds
  have hmem : ∀ d ∈ scope.findDirectives name true, d ∈ root.nodes := fun d hd =>
    (Tree.nodes_sublist root (Tree.mem_nodes_of_scope? hscope)).subset
      (Tree.mem_nodes_of_findDirectives hd).1
  have hknown : ∀ d ∈ ds, Workspace.Tended.Knows root d ∧ d.name ≠ "" := by
    intro d hd
    have hd' := (List.mem_filter.1 hd).1
    exact ⟨⟨d, hmem d hd', rfl, rfl, rfl⟩, hmirrored.name_ne hp d (hmem d hd')
      (Tree.mem_nodes_of_findDirectives hd').2.1⟩
  obtain ⟨w', r', hfold, hw', hrun, hbare⟩ :=
    hopened.tended.exists_foldlM_setParameters ds hknown parameters
  have hroot := hopened.tended.tidy.nodup_nodes (Forest.mem_nodes_of_mem hopened.tended.mem)
  refine ⟨w', r', (w.setDirective_eq hfound).trans hfold, hw', ?_, ?_, ?_, ?_⟩
  · -- those that are left out have the parameters already
    rw [← Tree.shape_bare, hbare, ← Tree.bare_assign, Tree.shape_bare,
      Tree.assign_filter hroot hmem]
  · refine Tree.IsKept.run (s := ⟨root.forget, w.next⟩) ?_ hrun
    simp only [hforget]
    exact hshows.isKept_opened policy
  · rintro ⟨t, ht, hne⟩
    rw [← Tree.forget_core]
    refine Sheet.dirty_run (fun hnil => ?_) (fun blocks hlook => ?_) hrun
    · have hin : t ∈ ds := List.mem_filter.2 ⟨ht, by simpa using hne⟩
      rw [List.map_eq_nil_iff.1 hnil] at hin
      simp at hin
    · obtain ⟨t, -, heq⟩ := List.mem_map.1 hlook
      simp at heq
  · have hmirrored' := Page.MirroredBy.run (s := ⟨root.forget, w.next⟩) hmirrored
      (by simpa [Edit.setsPlainParameters] using fun _ _ => hparameters) hrun
    have hends : ∀ u ∈ r'.nodes, u.endsPlainly = true := by
      intro u hu
      obtain ⟨v, hv, hv'⟩ := Tree.exists_of_bare_assign hbare hu
      rw [← Tree.endsPlainly_bare, hv', ← Tree.bare_assign, Tree.endsPlainly_bare]
      refine Tree.endsPlainly_assign (hopened.endsPlainly v hv) fun hid _ => ?_
      obtain ⟨t, ht, htid⟩ := List.mem_map.1 hid
      have ht' := (List.mem_filter.1 ht).1
      rw [← hopened.eq_of_id_eq (hmem t ht') hv htid]
      exact Statement.line_getLast?_of_sameName (Tree.mem_nodes_of_findDirectives ht').2.2 _ _ _
        hline
    obtain ⟨document', hread', hshape⟩ := hmirrored'.read_render hp hshows
      (Tree.forall_endsPlainly_forget hends) file
    obtain ⟨core, children, standing, htree, horigin, -⟩ := hmirrored'
    refine ⟨document', ?_, by rw [hshape, Tree.shape_forget]⟩
    rwa [Forest.render_of_forget w'.forest htree horigin hshows.kind_eq]

/-- A document knows the file it was read from. -/
theorem path_of_read (hdocument : Fragment.read ⟨file, text⟩ = .ok document) :
    document.source.path = file := by
  obtain ⟨p, -, -, hshows⟩ := Fragment.exists_page_of_read hdocument
  rw [hshows.parts.source_eq]

/-- Where all directives that are found have the parameters, there is nothing to assign. -/
theorem Tree.assign_found_eq_self (hopened : root.IsOpened policy w)
    (hscope : root.scope? block = some scope)
    (hall : ∀ t ∈ scope.findDirectives name true, t.parameters = parameters) :
    root.assign ((scope.findDirectives name true).map Tree.id) parameters = root := by
  refine Tree.assign_eq_self fun u hu hid => ?_
  obtain ⟨t, ht, htid⟩ := List.mem_map.1 hid
  have htnode : t ∈ root.nodes := (Tree.nodes_sublist root (Tree.mem_nodes_of_scope? hscope)).subset
    (Tree.mem_nodes_of_findDirectives ht).1
  rw [← hopened.eq_of_id_eq htnode hu htid]
  exact hall t ht

/-- A file that says the document with the parameters is up to date. -/
theorem run_runSet_of_shape (message : String)
    (hopen : Workspace.empty.openDocument document policy = .ok (root, w))
    (hscope : root.scope? block = some scope) (hfound : scope.findDirectives name true ≠ [])
    {text' : String} {document' : Fragment} (hread' : d.read file = .ok text')
    (hdocument' : Fragment.read ⟨file, text'⟩ = .ok document')
    (hshape : document'.shape =
      (root.assign ((scope.findDirectives name true).map Tree.id) parameters).shape) :
    Id.run ((runSet .ofDirectory policy file name parameters block message false).run d) =
      (.ok (file.text ++ ": already up to date\n"), d) := by
  have hopened := Tree.isOpened_of_openDocument hopen
  have hname := Directory.text_ne_of_read hread'
  have hopen' := Workspace.openDocument_of_path (by rwa [path_of_read hdocument']) Workspace.empty
    policy
  have hopened' := Tree.isOpened_of_openDocument hopen'
  rw [← shape_of_openDocument hdocument' hopen'] at hshape
  obtain ⟨scope', hscope', hlength, hall⟩ := Tree.exists_scope_of_shape_eq hopened.isUnder
    hopened'.isUnder
    (hopened.tended.tidy.nodup_nodes (Forest.mem_nodes_of_mem hopened.tended.mem)) hscope hshape
  refine run_runSet_of_parameters hread' hdocument' hopen' hscope' ?_ hall
  rw [← List.length_pos_iff, hlength, List.length_pos_iff]
  exact hfound

/-- When directives got other parameters, the document is written to its file. -/
theorem exists_run_runSet_of_dirty (message : String) {w' : Workspace} {r' : Tree}
    (hread : d.read file = .ok text)
    (hdocument : Fragment.read ⟨file, text⟩ = .ok document)
    (hopen : Workspace.empty.openDocument document policy = .ok (root, w))
    (hscope : root.scope? block = some scope)
    (hset : w.setDirective scope name parameters = .ok w') (hw' : w'.Tended r')
    (hkept : r'.forget.IsKept document) (hdirty : r'.core.dirty = true) :
    ∃ outcome d',
      Id.run ((runSet .ofDirectory policy file name parameters block message false).run d) =
        (outcome, d') ∧ outcome.code = 0 ∧ d'.read file = .ok (w'.forest.render [r']) := by
  obtain ⟨core, children, standing, htree, horigin, hpath, hgrown⟩ := hkept.isDocumentWith
  have hpaths : ∀ u ∈ r'.forget.nodes, u.core.path = file := by
    intro u hu
    rw [← path_of_read hdocument]
    rw [htree, Tree.nodes] at hu
    rcases List.mem_cons.1 hu with rfl | hu
    · exact hpath
    · exact (hgrown u hu).path_eq
  obtain ⟨hflag, hpaths⟩ := Tree.forall_of_forget hkept.isFlagged hpaths
  have hkind : r'.core.origin.isDocument = true := by
    obtain ⟨p, -, -, hshows⟩ := Fragment.exists_page_of_read hdocument
    rw [← Tree.forget_core, htree, Tree.core, horigin, Origin.isDocument_parsed hshows.kind_eq]
  have hroot : w'.forest.find? root.id = some r' := by
    rw [(Tree.isOpened_of_openDocument hopen).tended.first]
    exact hw'.find?_root
  -- a checkpoint is recorded before the file is written
  have hsaved : (w'.save r' message).2.Tended r' ∧
      (w'.save r' message).2.forest = w'.forest := by
    rw [Workspace.save, if_pos hdirty]
    exact ⟨⟨hw'.mem, hw'.first, hw'.top, hw'.tidy, hw'.lt_next⟩, rfl⟩
  obtain ⟨outcome, d', hwrite, hcode, hread'⟩ :=
    run_runWrite hsaved.1 hflag hpaths hkind hdirty hread
  rw [hsaved.2] at hread'
  refine ⟨outcome, d', ?_, hcode, hread'⟩
  rw [run_runSet hread hdocument hopen hscope hset hroot, if_pos hdirty, hwrite]

/-- The command that sets a directive succeeds on a file that can be read: what is written is read
back as the old document in which just the directives that were found have the parameters. The same
command then finds nothing to do and leaves all files as they are. -/
theorem runSet_twice (hread : d.read file = .ok text)
    (hdocument : Fragment.read ⟨file, text⟩ = .ok document)
    (hparameters : ∀ p ∈ parameters, isPlainParameter p = true)
    (hline : (Statement.line ⟨name, parameters, none⟩).toList.getLast? ≠ some '\\')
    (policy : Policy) (block : Option String) (message : String) :
    ∃ root w, Workspace.empty.openDocument document policy = .ok (root, w) ∧
      ∀ scope, root.scope? block = some scope → scope.findDirectives name true ≠ [] →
        ∃ outcome d' text' document',
          Id.run ((runSet .ofDirectory policy file name parameters block message false).run d) =
            (outcome, d') ∧ outcome.code = 0 ∧
          d'.read file = .ok text' ∧ Fragment.read ⟨file, text'⟩ = .ok document' ∧
          document'.shape =
            (root.assign ((scope.findDirectives name true).map Tree.id) parameters).shape ∧
          Id.run ((runSet .ofDirectory policy file name parameters block message false).run d') =
            (.ok (file.text ++ ": already up to date\n"), d') := by
  have hname := Directory.text_ne_of_read hread
  have hopen := Workspace.openDocument_of_path (by rwa [path_of_read hdocument]) Workspace.empty
    policy
  generalize Workspace.empty.opened document policy = opened at hopen
  obtain ⟨root, w⟩ := opened
  refine ⟨root, w, hopen, fun scope hscope hfound => ?_⟩
  by_cases hall : ∀ t ∈ scope.findDirectives name true, t.parameters = parameters
  · -- the document says this already, and nothing is written
    have hopened := Tree.isOpened_of_openDocument hopen
    have hshape : document.shape =
        (root.assign ((scope.findDirectives name true).map Tree.id) parameters).shape := by
      rw [Tree.assign_found_eq_self hopened hscope hall, shape_of_openDocument hdocument hopen]
    have hrun := run_runSet_of_shape message hopen hscope hfound hread hdocument hshape
    exact ⟨_, d, text, document, hrun, rfl, hread, hdocument, hshape, hrun⟩
  · obtain ⟨w', r', hset, hw', hassigned, hkept, hdirty, document', hdocument', hback⟩ :=
      exists_setDirective hdocument hopen hscope hfound hparameters hline
    obtain ⟨outcome, d', hrun, hcode, hread'⟩ := exists_run_runSet_of_dirty message
      hread hdocument hopen hscope hset hw' hkept (hdirty (by simpa using hall))
    have hshape := hback.trans hassigned
    exact ⟨outcome, d', _, document', hrun, hcode, hread', hdocument', hshape,
      run_runSet_of_shape message hopen hscope hfound hread' hdocument' hshape⟩

/-- In the block that is worked in, one directive is in force; those outside of it and below a
condition that is not known to hold keep their parameters. -/
theorem runSet_twice_scoped :
    ∃ d document root w scope outcome d' text' document',
      d = Directory.ofFiles [(⟨"site.conf"⟩, .file (.text
        "Listen 1\n<A x>\nlisten 2\n<IfDefine X>\nListen 3\n</IfDefine>\n</A>\n"))] ∧
      Workspace.empty.openDocument document Policy.default = .ok (root, w) ∧
      root.scope? (some "a") = some scope ∧
      (scope.findDirectives "LISTEN" true).map Tree.id = [3] ∧
      Id.run ((runSet .ofDirectory Policy.default ⟨"site.conf"⟩ "LISTEN" ["80", "\"a b\""]
        (some "a") "m" false).run d) = (outcome, d') ∧ outcome.code = 0 ∧
      d'.read ⟨"site.conf"⟩ = .ok text' ∧
      Fragment.read ⟨⟨"site.conf"⟩, text'⟩ = .ok document' ∧
      document'.shape = (root.assign [3] ["80", "\"a b\""]).shape ∧
      Id.run ((runSet .ofDirectory Policy.default ⟨"site.conf"⟩ "LISTEN" ["80", "\"a b\""]
        (some "a") "m" false).run d') = (.ok "site.conf: already up to date\n", d') := by
  obtain ⟨text, htext⟩ : ∃ text,
      text = "Listen 1\n<A x>\nlisten 2\n<IfDefine X>\nListen 3\n</IfDefine>\n</A>\n" := ⟨_, rfl⟩
  obtain ⟨d, hd⟩ : ∃ d, d = Directory.ofFiles [(⟨"site.conf"⟩, .file (.text text))] := ⟨_, rfl⟩
  have hread : d.read ⟨"site.conf"⟩ = .ok text := by
    rw [hd, htext]
    exact eq_ok_of_toOption (by decide +kernel)
  have hfacts : ((Fragment.read ⟨⟨"site.conf"⟩, text⟩).toOption.any fun document =>
      (Workspace.empty.openDocument document Policy.default).toOption.any fun opened =>
        (opened.1.scope? (some "a")).any fun scope =>
          (scope.findDirectives "LISTEN" true).map Tree.id == [3]) = true := by
    rw [htext]
    decide +kernel
  obtain ⟨document, hdocument, hfacts⟩ := (Option.any_eq_true ..).1 hfacts
  obtain ⟨⟨root, w⟩, hopen, hfacts⟩ := (Option.any_eq_true ..).1 hfacts
  obtain ⟨scope, hscope, hids⟩ := (Option.any_eq_true ..).1 hfacts
  have hids' : (scope.findDirectives "LISTEN" true).map Tree.id = [3] := beq_iff_eq.1 hids
  have hplain : ∀ p ∈ ["80", "\"a b\""], isPlainParameter p = true := by decide +kernel
  have hline : (Statement.line ⟨"LISTEN", ["80", "\"a b\""], none⟩).toList.getLast? ≠
      some '\\' := by
    decide +kernel
  obtain ⟨root', w', hopen', hset⟩ := runSet_twice hread (eq_ok_of_toOption hdocument) hplain hline
    Policy.default (some "a") "m"
  obtain ⟨rfl, rfl⟩ := Prod.mk.inj
    (Except.ok.inj (hopen'.symm.trans (eq_ok_of_toOption hopen)))
  obtain ⟨outcome, d', text', document', hrun, hcode, hread', hdocument', hshape, hagain⟩ :=
    hset scope hscope (by
      intro hnil
      simp [hnil] at hids')
  rw [hids'] at hshape
  exact ⟨d, document, root', w', scope, outcome, d', text', document', by rw [hd, htext],
    eq_ok_of_toOption hopen, hscope, hids', hrun, hcode, hread', hdocument', hshape, hagain⟩

end

end HttpdConf
