import HttpdConf.Proofs.Exclusion
import HttpdConf.Tree.Equality

/-!
# Equal nodes look the same

Nodes are compared field by field, up along the blocks around them and down through their children.
On the way a comparison stops early where it meets one block twice, as a block agrees with itself.
All of this amounts to one question: whether two portraits are equal. The portrait of a node has
what can be seen of it: its own data, the labels of the blocks around it and the portraits of its
children, with paths given by their components. So equality is an equivalence, and stopping early
never changes an answer.

## Main definitions

* `Fragment.view`, `Core.view`, `Tree.label`, `Tree.sight`: what can be seen of a fragment, of what
  every node has, of a block around a node and of a node by itself
* `Tree.portrait`: all that can be seen of a node
* `Forest.compareInFull`: a comparison that never stops early

## Main results

* `sameChain_lineage_iff`: chains of live blocks agree exactly when their labels are equal
* `Tree.compare_iff`: nodes with the same labels around them agree exactly when their portraits are
  equal
* `Workspace.Sound.compareNodes_iff_children`: how equality recurs
* `Workspace.compareNodes_run`: after any operations, equality of nodes is equality of portraits
-/

namespace HttpdConf

/-! ## Views -/

/-- A fragment with its path given by components. -/
inductive FragmentView where
  | mk (path : List Component) (text : String) (kind : FragmentKind) (spans : List Span)
      (children : List FragmentView)

mutual
def Fragment.view : Fragment → FragmentView
  | ⟨source, kind, span, leading, header, trailing, footer, children⟩ =>
    .mk source.path.components source.text kind [span, leading, header, trailing, footer]
      (viewAll children)

def Fragment.viewAll : List Fragment → List FragmentView
  | [] => []
  | f :: fs => f.view :: viewAll fs
end

/-- What can be seen of what every node has. Its number cannot, nor whether a change is its own. -/
structure CoreView where
  dirty : Bool
  path : List Component
  synthetic : Bool
  fragment : FragmentView

def Core.view (core : Core) : CoreView :=
  ⟨core.dirty, core.path.components, core.origin.synthetic, core.origin.fragment.view⟩

/-- What can be seen of a block around a node. -/
structure Label where
  name : String
  parameters : List String
  core : CoreView

def Tree.label (t : Tree) : Label := ⟨t.name, t.parameters, t.core.view⟩

/-- What can be seen of a node by itself. -/
inductive Sight where
  | comment (text : String) (core : CoreView)
  | directive (name : String) (parameters : List String) (enabled : Bool) (core : CoreView)
  | block (name : String) (parameters : List String) (enabled : Bool) (core : CoreView)

/-- What can be seen of a node, given whether it is in force. -/
def Tree.sight (enabled : Bool) : Tree → Sight
  | .comment core text => .comment text core.view
  | .directive core s => .directive s.name s.parameters enabled core.view
  | .block core s _ => .block s.name s.parameters enabled core.view

/-- All that can be seen of a node: the node itself, the blocks around it and its children. -/
inductive Portrait where
  | mk (own : Sight) (above : List Label) (children : List Portrait)

mutual
def Tree.portrait (f : Forest) : Tree → Portrait
  | .comment core text =>
    .mk ((Tree.comment core text).sight (f.enabled (.comment core text)))
      ((f.lineage core).map Tree.label) []
  | .directive core s =>
    .mk ((Tree.directive core s).sight (f.enabled (.directive core s)))
      ((f.lineage core).map Tree.label) []
  | .block core s children =>
    .mk ((Tree.block core s children).sight (f.enabled (.block core s children)))
      ((f.lineage core).map Tree.label) (Forest.portraits f children)

def Forest.portraits (f : Forest) : List Tree → List Portrait
  | [] => []
  | t :: ts => t.portrait f :: Forest.portraits f ts
end

theorem Forest.portraits_eq_map (f : Forest) (ts : List Tree) :
    Forest.portraits f ts = ts.map (Tree.portrait f) := by
  induction ts with
  | nil => rw [Forest.portraits, List.map_nil]
  | cons t ts ih => rw [Forest.portraits, ih, List.map_cons]

theorem Tree.portrait_eq (f : Forest) (t : Tree) :
    t.portrait f = .mk (t.sight (f.enabled t)) ((f.lineage t.core).map Tree.label)
      (t.children.map (Tree.portrait f)) := by
  cases t with
  | block core s children => rw [Tree.portrait, Forest.portraits_eq_map]; rfl
  | comment core text => rw [Tree.portrait]; rfl
  | directive core s => rw [Tree.portrait]; rfl

/-! ## Agreement is equality of views -/

theorem Path.beq_iff_components (p q : Path) : (p == q) = true ↔ p.components = q.components := by
  change (p.components == q.components) = true ↔ _
  exact beq_iff_eq

mutual
theorem Fragment.same_iff (a b : Fragment) : a.same b = true ↔ a.view = b.view := by
  match a, b with
  | ⟨source, kind, span, leading, header, trailing, footer, children⟩,
    ⟨source', kind', span', leading', header', trailing', footer', children'⟩ =>
    have hinside := Fragment.sameAll_iff children children'
    simp only [Fragment.same, Fragment.view, SourceFile.same, Bool.and_eq_true, beq_iff_eq,
      Path.beq_iff_components, hinside, FragmentView.mk.injEq, List.cons.injEq, and_true]
    tauto

theorem Fragment.sameAll_iff (as bs : List Fragment) :
    Fragment.sameAll as bs = true ↔ Fragment.viewAll as = Fragment.viewAll bs := by
  match as, bs with
  | [], [] => simp [Fragment.sameAll]
  | [], b :: bs => simp [Fragment.sameAll, Fragment.viewAll]
  | a :: as, [] => simp [Fragment.sameAll, Fragment.viewAll]
  | a :: as, b :: bs =>
    rw [Fragment.sameAll, Bool.and_eq_true, Fragment.same_iff a b, Fragment.sameAll_iff as bs,
      Fragment.viewAll, Fragment.viewAll, List.cons.injEq]
end

theorem Core.same_iff (a b : Core) : a.same b = true ↔ a.view = b.view := by
  simp only [Core.same, Origin.same, Core.view, Bool.and_eq_true, beq_iff_eq,
    Path.beq_iff_components, Fragment.same_iff, CoreView.mk.injEq, and_assoc]

theorem Tree.sameLabel_iff (a b : Tree) : a.sameLabel b = true ↔ a.label = b.label := by
  simp only [Tree.sameLabel, Tree.label, Bool.and_eq_true, beq_iff_eq, Core.same_iff,
    Label.mk.injEq, and_assoc]

theorem Tree.sameSelf_iff (inForce inForce' : Bool) (a b : Tree) :
    a.sameSelf inForce inForce' b = true ↔ a.sight inForce = b.sight inForce' := by
  cases a <;> cases b <;> simp [Tree.sameSelf, Tree.sight, Core.same_iff, and_assoc]

/-! ## Chains of blocks -/

/-- Agreement of two chains of blocks by their labels alone. -/
def sameLabels : List Tree → List Tree → Bool
  | [], [] => true
  | a :: as, b :: bs => a.sameLabel b && sameLabels as bs
  | _, _ => false

theorem sameLabels_iff (as bs : List Tree) :
    sameLabels as bs = true ↔ as.map Tree.label = bs.map Tree.label := by
  induction as generalizing bs with
  | nil => cases bs <;> simp [sameLabels]
  | cons a as ih =>
    cases bs with
    | nil => simp [sameLabels]
    | cons b bs =>
      rw [sameLabels, Bool.and_eq_true, Tree.sameLabel_iff, ih, List.map_cons, List.map_cons,
        List.cons.injEq]

namespace Workspace.Sound

variable {w : Workspace} {a b x y : Tree} (hw : w.Sound)
include hw

/-- Chains of live blocks agree exactly when their labels are equal. Where both have the same block,
they go on alike. -/
theorem sameChain_lineage_iff (ha : a ∈ Forest.nodes w.forest) (hb : b ∈ Forest.nodes w.forest) :
    sameChain (w.forest.lineage a.core) (w.forest.lineage b.core) = true ↔
      (w.forest.lineage a.core).map Tree.label = (w.forest.lineage b.core).map Tree.label := by
  -- links go to older nodes
  induction hn : a.id using Nat.strong_induction_on generalizing a b with
  | _ n ih =>
    rw [hw.lineage_eq ha, hw.lineage_eq hb]
    cases hp : w.forest.ancestor? a.core with
    | none => cases w.forest.ancestor? b.core <;> simp [sameChain]
    | some p =>
      cases hq : w.forest.ancestor? b.core with
      | none => simp [sameChain]
      | some q =>
        obtain ⟨i, hi, hfindp⟩ := Option.bind_eq_some_iff.1 hp
        obtain ⟨j, -, hfindq⟩ := Option.bind_eq_some_iff.1 hq
        obtain ⟨hpnode, rfl⟩ := Forest.mem_nodes_of_find? hfindp
        obtain ⟨hqnode, rfl⟩ := Forest.mem_nodes_of_find? hfindq
        have hmore := ih p.id (hn ▸ hw.older a ha _ hi) hpnode hqnode rfl
        simp only [sameChain, Bool.or_eq_true, Bool.and_eq_true, beq_iff_eq, Tree.sameLabel_iff,
          hmore, List.map_cons, List.cons.injEq]
        constructor
        · rintro (hid | h)
          · rw [hw.tidy.eq_of_id_eq hpnode hqnode hid]
            exact ⟨rfl, rfl⟩
          · exact h
        · exact .inr

end Workspace.Sound

/-! ## Nodes and what is inside them -/

/-- What looks like a comment or directive has nothing inside. -/
theorem Tree.children_eq_nil_of_sight_eq {e e' : Bool} {a b : Tree} (ha : a.isBlock = false)
    (h : a.sight e = b.sight e') : b.children = [] := by
  cases b with
  | block core s children => cases a <;> simp [Tree.sight, Tree.isBlock] at h ha
  | _ => rfl

/-- Blocks that look the same by themselves have the same label. -/
theorem Tree.label_eq_of_sight_eq {e e' : Bool} {a b : Tree} (ha : a.isBlock = true)
    (h : a.sight e = b.sight e') : a.label = b.label := by
  obtain ⟨core, s, children, rfl⟩ := Tree.exists_of_isBlock ha
  cases b with
  | block core' s' children' =>
    rw [Tree.sight, Tree.sight, Sight.block.injEq] at h
    obtain ⟨hname, hparameters, -, hcore⟩ := h
    exact Label.mk.injEq .. ▸ ⟨hname, hparameters, hcore⟩
  | _ => simp [Tree.sight] at h

mutual
/-- Nodes with the same labels around them agree exactly when their portraits are equal. -/
theorem Tree.compare_iff {w : Workspace} (hw : w.Sound) (a b : Tree)
    (ha : a ∈ Forest.nodes w.forest) (hb : b ∈ Forest.nodes w.forest)
    (habove : (w.forest.lineage a.core).map Tree.label =
      (w.forest.lineage b.core).map Tree.label) :
    (a.compare (w.forest.enabled a) (w.forest.enabled b) b).1 = true ↔
      a.portrait w.forest = b.portrait w.forest := by
  have hself := Tree.sameSelf_iff (w.forest.enabled a) (w.forest.enabled b) a b
  rw [a.portrait_eq, b.portrait_eq, Portrait.mk.injEq, ← hself]
  match a with
  | .comment core text =>
    rw [Tree.compare]
    refine ⟨fun h => ⟨h, habove, ?_⟩, And.left⟩
    rw [Tree.children_eq_nil_of_sight_eq rfl (hself.1 h)]
    rfl
  | .directive core s =>
    rw [Tree.compare]
    refine ⟨fun h => ⟨h, habove, ?_⟩, And.left⟩
    rw [Tree.children_eq_nil_of_sight_eq rfl (hself.1 h)]
    rfl
  | .block core s children =>
    rw [Tree.compare]
    simp only
    split
    · simp_all
    · rename_i hsame
      rw [Bool.not_eq_true', Bool.not_eq_false] at hsame
      have hlabel := Tree.label_eq_of_sight_eq rfl (hself.1 hsame)
      split
      · -- lists of different lengths have different portraits
        rename_i hlength
        have hne : children.map (Tree.portrait w.forest) ≠
            b.children.map (Tree.portrait w.forest) := fun h => by
          simpa using (bne_iff_ne.1 hlength) (by simpa using congrArg List.length h)
        exact ⟨fun h => absurd h (by simp), fun h => absurd h.2.2 hne⟩
      · have hinside := Forest.compare_iff hw (.block core s children) b children b.children ha hb
          (fun _ h => h) (fun _ h => h) (by rw [List.map_cons, List.map_cons, hlabel, habove])
        exact ⟨fun h => ⟨hsame, habove, hinside.1 h⟩, fun h => hinside.2 h.2.2⟩

/-- Children of two blocks with equal labels agree exactly when their portraits are equal, one by
one. -/
theorem Forest.compare_iff {w : Workspace} (hw : w.Sound) (x y : Tree) (as bs : List Tree)
    (hx : x ∈ Forest.nodes w.forest) (hy : y ∈ Forest.nodes w.forest)
    (has : ∀ a ∈ as, a ∈ x.children) (hbs : ∀ b ∈ bs, b ∈ y.children)
    (habove : (x :: w.forest.lineage x.core).map Tree.label =
      (y :: w.forest.lineage y.core).map Tree.label) :
    (Forest.compare (w.enabledInside x) (w.enabledInside y) as bs).1 = true ↔
      as.map (Tree.portrait w.forest) = bs.map (Tree.portrait w.forest) := by
  match as, bs with
  | [], [] => simp [Forest.compare]
  | [], b :: bs => simp [Forest.compare]
  | a :: as, [] => simp [Forest.compare]
  | a :: as, b :: bs =>
    rw [List.forall_mem_cons] at has hbs
    have hrest := Forest.compare_iff hw x y as bs hx hy has.2 hbs.2 habove
    have hfirst := Tree.compare_iff hw a b (Forest.mem_nodes_of_child hx has.1)
      (Forest.mem_nodes_of_child hy hbs.1)
      (by rw [hw.lineage_child hx has.1, hw.lineage_child hy hbs.1, habove])
    rw [hw.enabled_child hx has.1, hw.enabled_child hy hbs.1] at hfirst
    rw [List.map_cons, List.map_cons, List.cons.injEq, ← hfirst, ← hrest, Forest.compare]
    rcases a.compare (w.enabledInside x) (w.enabledInside y) b with ⟨equal, listed⟩
    cases equal <;> simp
end

/-! ## Equality -/

/-- A comparison that does not ask whether two nodes or blocks are the same one. -/
def Forest.compareInFull (f : Forest) (a b : Tree) : Bool :=
  sameLabels (f.lineage a.core) (f.lineage b.core) && (a.compare (f.enabled a) (f.enabled b) b).1

namespace Workspace

variable {w : Workspace} {a b : Tree}

theorem Sound.compareInFull_iff (hw : w.Sound) (ha : a ∈ Forest.nodes w.forest)
    (hb : b ∈ Forest.nodes w.forest) :
    w.forest.compareInFull a b = true ↔ a.portrait w.forest = b.portrait w.forest := by
  rw [Forest.compareInFull, Bool.and_eq_true, sameLabels_iff]
  constructor
  · exact fun ⟨habove, h⟩ => (Tree.compare_iff hw a b ha hb habove).1 h
  · intro h
    have hparts := h
    rw [a.portrait_eq, b.portrait_eq, Portrait.mk.injEq] at hparts
    exact ⟨hparts.2.1, (Tree.compare_iff hw a b ha hb hparts.2.1).2 h⟩

/-- Nodes are equal exactly when their portraits are. -/
theorem Sound.compareNodes_iff (hw : w.Sound) (ha : a ∈ Forest.nodes w.forest)
    (hb : b ∈ Forest.nodes w.forest) :
    (w.forest.compareNodes a b).1 = true ↔ a.portrait w.forest = b.portrait w.forest := by
  have hchain := hw.sameChain_lineage_iff ha hb
  rw [Forest.compareNodes]
  split
  · rename_i hid
    rw [hw.tidy.eq_of_id_eq ha hb (beq_iff_eq.1 hid)]
    exact ⟨fun _ => rfl, fun _ => rfl⟩
  · split
    · rename_i hsame
      exact Tree.compare_iff hw a b ha hb (hchain.1 hsame)
    · rename_i hdiffer
      rw [a.portrait_eq, b.portrait_eq, Portrait.mk.injEq, ← hchain]
      simp [hdiffer]

/-- Nodes are equal one by one exactly when their portraits are. -/
theorem Sound.forall₂_compareNodes_iff (hw : w.Sound) {as bs : List Tree}
    (has : ∀ a ∈ as, a ∈ Forest.nodes w.forest) (hbs : ∀ b ∈ bs, b ∈ Forest.nodes w.forest) :
    List.Forall₂ (fun a b => (w.forest.compareNodes a b).1 = true) as bs ↔
      as.map (Tree.portrait w.forest) = bs.map (Tree.portrait w.forest) := by
  induction as generalizing bs with
  | nil => cases bs <;> simp
  | cons a as ih =>
    cases bs with
    | nil => simp
    | cons b bs =>
      rw [List.forall_mem_cons] at has hbs
      rw [List.forall₂_cons, hw.compareNodes_iff has.1 hbs.1, ih has.2 hbs.2, List.map_cons,
        List.map_cons, List.cons.injEq]

/-- How equality recurs. A node is equal to itself, and to another one that agrees with it by
itself, has blocks around it that agree and has equal children. Of these children it is asked again
whether they are the same node and whether the blocks around them agree, which a comparison of what
is inside two nodes leaves out. -/
theorem Sound.compareNodes_iff_children (hw : w.Sound) (ha : a ∈ Forest.nodes w.forest)
    (hb : b ∈ Forest.nodes w.forest) :
    (w.forest.compareNodes a b).1 = true ↔
      a.id = b.id ∨
        (a.sameSelf (w.forest.enabled a) (w.forest.enabled b) b = true ∧
          sameChain (w.forest.lineage a.core) (w.forest.lineage b.core) = true ∧
          List.Forall₂ (fun c d => (w.forest.compareNodes c d).1 = true) a.children
            b.children) := by
  have hportraits : a.portrait w.forest = b.portrait w.forest ↔
      a.sameSelf (w.forest.enabled a) (w.forest.enabled b) b = true ∧
        sameChain (w.forest.lineage a.core) (w.forest.lineage b.core) = true ∧
        List.Forall₂ (fun c d => (w.forest.compareNodes c d).1 = true) a.children b.children := by
    rw [a.portrait_eq, b.portrait_eq, Portrait.mk.injEq, Tree.sameSelf_iff,
      hw.sameChain_lineage_iff ha hb,
      hw.forall₂_compareNodes_iff (fun c hc => Forest.mem_nodes_of_child ha hc)
        fun d hd => Forest.mem_nodes_of_child hb hd]
  -- a node that is asked about itself has one portrait, so the first check adds nothing
  rw [← hportraits, hw.compareNodes_iff ha hb]
  refine ⟨.inr, fun h => h.elim (fun hid => ?_) id⟩
  rw [hw.tidy.eq_of_id_eq ha hb hid]

/-- After any operations, two live nodes are equal exactly when their portraits are: when they look
the same by themselves, the blocks around them have the same labels, and their children are equal
one by one. So equality is an equivalence that a node has with itself, and nothing depends on where
a comparison stops. -/
theorem compareNodes_run {operations : List Operation} (hw : empty.run operations = w)
    (ha : a ∈ Forest.nodes w.forest) (hb : b ∈ Forest.nodes w.forest) :
    ((w.forest.compareNodes a b).1 = true ↔ a.portrait w.forest = b.portrait w.forest) ∧
    ((w.forest.compareNodes a b).1 = true ↔
      a.sight (w.forest.enabled a) = b.sight (w.forest.enabled b) ∧
      (w.forest.lineage a.core).map Tree.label = (w.forest.lineage b.core).map Tree.label ∧
      List.Forall₂ (fun c d => (w.forest.compareNodes c d).1 = true) a.children b.children) ∧
    (a.id = b.id → (w.forest.compareNodes a b).1 = true) ∧
    (w.forest.compareNodes b a).1 = (w.forest.compareNodes a b).1 ∧
    (∀ c ∈ Forest.nodes w.forest, (w.forest.compareNodes a b).1 = true →
      (w.forest.compareNodes b c).1 = true → (w.forest.compareNodes a c).1 = true) ∧
    (w.forest.compareNodes a b).1 = w.forest.compareInFull a b := by
  have hsound : w.Sound := hw ▸ Sound.empty.run operations
  have hiff : ∀ {x y : Tree}, x ∈ Forest.nodes w.forest → y ∈ Forest.nodes w.forest →
      ((w.forest.compareNodes x y).1 = true ↔ x.portrait w.forest = y.portrait w.forest) :=
    fun hx hy => hsound.compareNodes_iff hx hy
  refine ⟨hiff ha hb, ?_, fun hid => ?_, ?_, fun c hc hab hbc => ?_, ?_⟩
  · rw [hiff ha hb, a.portrait_eq, b.portrait_eq, Portrait.mk.injEq,
      hsound.forall₂_compareNodes_iff (fun c hc => Forest.mem_nodes_of_child ha hc)
        fun d hd => Forest.mem_nodes_of_child hb hd]
  · rw [hsound.tidy.eq_of_id_eq ha hb hid]
    exact (hiff hb hb).2 rfl
  · rw [Bool.eq_iff_iff, hiff hb ha, hiff ha hb]
    exact eq_comm
  · exact (hiff ha hc).2 (((hiff ha hb).1 hab).trans ((hiff hb hc).1 hbc))
  · rw [Bool.eq_iff_iff, hiff ha hb, hsound.compareInFull_iff ha hb]

/-- A file that is opened twice has equal nodes in both trees, also where its path is spelled
differently. In a third tree the block differs, as a directive inside was changed. -/
theorem compareNodes_run_reopened :
    ∃ document w a b c,
      Fragment.read ⟨⟨"site.conf"⟩, "A 1\n<B>\nC 2\n</B>\n"⟩ = .ok document ∧
      w = empty.run [
        .construct ⟨none, none, false, some (.parsed document), none⟩ (.block "" []) true,
        .construct ⟨none, some ⟨"site.conf/."⟩, false, some (.parsed document), none⟩
          (.block "" []) true,
        .construct ⟨none, none, false, some (.parsed document), none⟩ (.block "" []) true,
        .edit 8 (.setParameters 11 ["3"])] ∧
      w.forest.find? 2 = some a ∧ w.forest.find? 6 = some b ∧ w.forest.find? 10 = some c ∧
      (w.forest.compareNodes a b).1 = true ∧ a.portrait w.forest = b.portrait w.forest ∧
      (w.forest.compareNodes a c).1 = false ∧ a.portrait w.forest ≠ c.portrait w.forest := by
  have hfacts : ((Fragment.read ⟨⟨"site.conf"⟩,
        "A 1\n<B>\nC 2\n</B>\n"⟩).toOption.any fun document =>
      let w := empty.run [
        .construct ⟨none, none, false, some (.parsed document), none⟩ (.block "" []) true,
        .construct ⟨none, some ⟨"site.conf/."⟩, false, some (.parsed document), none⟩
          (.block "" []) true,
        .construct ⟨none, none, false, some (.parsed document), none⟩ (.block "" []) true,
        .edit 8 (.setParameters 11 ["3"])]
      (w.forest.find? 2).any fun a => (w.forest.find? 6).any fun b => (w.forest.find? 10).any
        fun c => (w.forest.compareNodes a b).1 && !(w.forest.compareNodes a c).1) = true := by
    decide +kernel
  obtain ⟨document, hread, hfacts⟩ := (Option.any_eq_true ..).1 hfacts
  simp only at hfacts
  generalize hw : empty.run _ = w at hfacts
  obtain ⟨a, ha, hfacts⟩ := (Option.any_eq_true ..).1 hfacts
  obtain ⟨b, hb, hfacts⟩ := (Option.any_eq_true ..).1 hfacts
  obtain ⟨c, hc, hfacts⟩ := (Option.any_eq_true ..).1 hfacts
  obtain ⟨hequal, hdiffer⟩ := Bool.and_eq_true_iff.1 hfacts
  rw [Bool.not_eq_true'] at hdiffer
  have hanode := (Forest.mem_nodes_of_find? ha).1
  have hab := (compareNodes_run hw hanode (Forest.mem_nodes_of_find? hb).1).1
  have hac := (compareNodes_run hw hanode (Forest.mem_nodes_of_find? hc).1).1
  exact ⟨document, w, a, b, c, eq_ok_of_toOption hread, hw.symm, ha, hb, hc, hequal,
    hab.1 hequal, hdiffer, fun h => by simp [hac.2 h] at hdiffer⟩

end Workspace

end HttpdConf
