import HttpdConf.Proofs.Saves
import HttpdConf.Proofs.SingleEdits
import HttpdConf.Session.Document
import Mathlib.Data.List.Infix

/-!
# The nodes of one file

Files are nested in each other in any pattern: a file is included in a block of another one, and
that file in a block of the first. The topmost nodes of a file are those with no node of it around
them. A node is told from an equal one by its place, the child indices that lead to it: a node is
inside another when its place continues that of the other, and the document order of nodes is the
lexicographic order of places. The topmost nodes of a file are apart, and each node of the file is
in one of them and in no other.

## Main definitions

* `Tree.places`: the places of all nodes
* `Tree.IsFileRoot`: a node of a file with no node of it around it
* `Tree.filePlaces`: the places of those
* `Tree.Divides`: nodes that divide a file among them

## Main results

* `Tree.map_at?_filePlaces`: `Tree.fileRoots` lists the topmost nodes of a file
* `Tree.divides_fileRoots`: they divide the file among them, and a walk through them meets each node
  of the file once
-/

namespace HttpdConf

mutual
/-- The places of all nodes, in document order. -/
def Tree.places : Tree → List (List Nat)
  | .comment _ _ => [[]]
  | .directive _ _ => [[]]
  | .block _ _ children => [] :: Forest.places 0 children

/-- The places of all nodes among siblings, when the first of them has the given index. -/
def Forest.places (index : Nat) : Forest → List (List Nat)
  | [] => []
  | t :: rest => t.places.map (index :: ·) ++ Forest.places (index + 1) rest
end

/-- Whether there is a node of a file at a place. -/
def Tree.hasFile (path : Path) (t : Tree) (p : List Nat) : Bool :=
  (t.at? p).any fun u => u.core.path == path

/-- A node of a file is at the place, and none on the way to it. -/
def Tree.IsFileRoot (path : Path) (t : Tree) (p : List Nat) : Prop :=
  t.hasFile path p = true ∧ ∀ q ∈ p.inits, t.hasFile path q = true → q = p

instance (path : Path) (t : Tree) : DecidablePred (t.IsFileRoot path) := fun p =>
  inferInstanceAs (Decidable (_ ∧ ∀ q ∈ p.inits, _))

/-- The places of the topmost nodes of a file. -/
def Tree.filePlaces (path : Path) (t : Tree) : List (List Nat) :=
  t.places.filter (t.IsFileRoot path)

/-- Nodes of a file, given by their places, divide the file among them: they stand in document
order, none is inside another, and every node of the file is in one of them only. -/
structure Tree.Divides (path : Path) (t : Tree) (places : List (List Nat)) : Prop where
  ordered : places.Pairwise (· < ·)
  hasFile : ∀ p ∈ places, t.hasFile path p = true
  apart : ∀ p ∈ places, ∀ q ∈ places, p <+: q → p = q
  covers : ∀ p, t.hasFile path p = true → ∃! q, q ∈ places ∧ q <+: p

variable {t u : Tree} {path : Path} {i : Nat} {p q : List Nat}

/-! ## Places -/

theorem Tree.at?_append (t : Tree) (p q : List Nat) :
    t.at? (p ++ q) = (t.at? p).bind fun u => u.at? q := by
  induction p generalizing t with
  | nil => rfl
  | cons i p ih =>
    rw [List.cons_append, Tree.at?, Tree.at?, Option.bind_assoc]
    exact Option.bind_congr fun u _ => ih u

theorem Tree.places_eq (t : Tree) : t.places = [] :: Forest.places 0 t.children := by
  cases t <;> simp [Tree.places, Tree.children, Forest.places]

theorem Forest.le_of_mem_places {index : Nat} (f : Forest) (h : p ∈ Forest.places index f) :
    ∃ i q, p = i :: q ∧ index ≤ i := by
  induction f generalizing index with
  | nil => simp [Forest.places] at h
  | cons t f ih =>
    rw [Forest.places, List.mem_append] at h
    rcases h with h | h
    · obtain ⟨q, -, rfl⟩ := List.mem_map.1 h
      exact ⟨index, q, rfl, le_rfl⟩
    · obtain ⟨i, q, rfl, hi⟩ := ih h
      exact ⟨i, q, rfl, by omega⟩

mutual
/-- List Nats are listed in lexicographic order, so each of them once. -/
theorem Tree.pairwise_places (t : Tree) : t.places.Pairwise (· < ·) := by
  match t with
  | .comment core text => simp [Tree.places]
  | .directive core statement => simp [Tree.places]
  | .block core statement children =>
    rw [Tree.places, List.pairwise_cons]
    refine ⟨fun p hp => ?_, Forest.pairwise_places 0 children⟩
    obtain ⟨i, q, rfl, -⟩ := Forest.le_of_mem_places children hp
    exact List.nil_lt_cons i q

theorem Forest.pairwise_places (index : Nat) (f : Forest) :
    (Forest.places index f).Pairwise (· < ·) := by
  match f with
  | [] => simp [Forest.places]
  | t :: f =>
    rw [Forest.places, List.pairwise_append]
    refine ⟨?_, Forest.pairwise_places (index + 1) f, fun p hp q hq => ?_⟩
    · refine (Tree.pairwise_places t).map _ fun p q hpq => ?_
      exact List.cons_lt_cons_iff.2 (.inr ⟨rfl, hpq⟩)
    · obtain ⟨p, -, rfl⟩ := List.mem_map.1 hp
      obtain ⟨i, q, rfl, hi⟩ := Forest.le_of_mem_places f hq
      exact List.cons_lt_cons_iff.2 (.inl (by omega))
end

mutual
/-- The nodes of a tree are those at its places, in this order. -/
theorem Tree.map_at?_places (t : Tree) : t.places.map (Tree.at? · t) = t.nodes.map some := by
  match t with
  | .comment core text => rfl
  | .directive core statement => rfl
  | .block core statement children =>
    rw [Tree.places, Tree.nodes, List.map_cons, List.map_cons]
    exact congrArg _ (Forest.map_at?_places [] children rfl)

theorem Forest.map_at?_places {t : Tree} (before f : Forest) (h : t.children = before ++ f) :
    (Forest.places before.length f).map (Tree.at? · t) = (Forest.nodes f).map some := by
  match f with
  | [] => simp [Forest.places]
  | u :: f =>
    -- the place after the index of `u` is read in `u`
    have hhere : (Tree.at? · t) ∘ (before.length :: ·) = (Tree.at? · u) := by
      funext p
      simp [Tree.at?, h]
    have hlater := Forest.map_at?_places (t := t) (before ++ [u]) f (by simp [h])
    rw [List.length_append, List.length_singleton] at hlater
    rw [Forest.places, Forest.nodes_cons, List.map_append, List.map_append, List.map_map, hhere,
      Tree.map_at?_places u, hlater]
end

theorem Forest.mem_places (index : Nat) {f : Forest} (hu : f[i]? = some u) (hp : p ∈ u.places) :
    (index + i) :: p ∈ Forest.places index f := by
  induction f generalizing index i with
  | nil => simp at hu
  | cons t f ih =>
    rw [Forest.places, List.mem_append]
    cases i with
    | zero =>
      obtain rfl : t = u := by simpa using hu
      exact .inl (List.mem_map_of_mem hp)
    | succ i =>
      have hmem := ih (index + 1) (List.getElem?_cons_succ ▸ hu)
      rw [Nat.add_assoc, Nat.add_comm 1 i] at hmem
      exact .inr hmem

/-- Where there is a node, there is a place. -/
theorem Tree.mem_places (h : t.at? p = some u) : p ∈ t.places := by
  induction p generalizing t with
  | nil =>
    rw [t.places_eq]
    exact List.mem_cons_self ..
  | cons i p ih =>
    obtain ⟨v, hv, hu⟩ := Option.bind_eq_some_iff.1 h
    have hmem := Forest.mem_places 0 hv (ih hu)
    rw [Nat.zero_add] at hmem
    rw [t.places_eq]
    exact List.mem_cons_of_mem _ hmem

/-! ## The topmost nodes of a file -/

@[simp]
theorem Tree.hasFile_nil (t : Tree) : t.hasFile path [] = (t.core.path == path) := by
  simp [Tree.hasFile, Tree.at?]

@[simp]
theorem Tree.hasFile_cons (t : Tree) :
    t.hasFile path (i :: p) = t.children[i]?.any fun u => u.hasFile path p := by
  rw [Tree.hasFile, Tree.at?]
  cases t.children[i]? <;> rfl

theorem Tree.isFileRoot_nil : t.IsFileRoot path [] ↔ (t.core.path == path) = true := by
  simp [Tree.IsFileRoot]

/-- Below the top, a node is topmost of its file just if the top is of another file. -/
theorem Tree.isFileRoot_cons : t.IsFileRoot path (i :: p) ↔
    (t.core.path == path) = false ∧ ∃ u, t.children[i]? = some u ∧ u.IsFileRoot path p := by
  simp only [Tree.IsFileRoot, List.inits_cons, List.forall_mem_cons, List.forall_mem_map,
    Tree.hasFile_nil, Tree.hasFile_cons, List.cons_inj_right, reduceCtorEq, imp_false,
    Bool.not_eq_true]
  cases t.children[i]? with
  | none => simp
  | some u => simp [and_left_comm]

/-- Under a node of the file, no node is topmost. -/
theorem Tree.filePlaces_of_path (h : (t.core.path == path) = true) : t.filePlaces path = [[]] := by
  rw [Tree.filePlaces, t.places_eq, List.filter_cons_of_pos (by simpa using isFileRoot_nil.2 h)]
  refine congrArg _ (List.filter_eq_nil_iff.2 fun p hp => ?_)
  obtain ⟨i, q, rfl, -⟩ := Forest.le_of_mem_places _ hp
  simp [Tree.isFileRoot_cons, h]

theorem Tree.filePlaces_of_not_path (h : (t.core.path == path) = false) :
    t.filePlaces path = (Forest.places 0 t.children).filter (t.IsFileRoot path) := by
  have htop : ¬ t.IsFileRoot path [] := by simp [Tree.isFileRoot_nil, h]
  rw [Tree.filePlaces, t.places_eq, List.filter_cons_of_neg (by simpa using htop)]

mutual
/-- The roots of a file are its topmost nodes, in document order. -/
theorem Tree.map_at?_filePlaces (path : Path) (t : Tree) :
    (t.filePlaces path).map (Tree.at? · t) = (t.fileRoots path).map some := by
  cases hpath : t.core.path == path with
  | true =>
    rw [Tree.filePlaces_of_path hpath, Tree.fileRoots_of_path hpath]
    rfl
  | false =>
    rw [Tree.filePlaces_of_not_path hpath, Tree.fileRoots_of_not_path hpath]
    match t with
    | .comment core text => rfl
    | .directive core statement => rfl
    | .block core statement children =>
      exact Forest.map_at?_filePlaces path [] children rfl hpath

theorem Forest.map_at?_filePlaces (path : Path) {t : Tree} (before f : Forest)
    (h : t.children = before ++ f) (hpath : (t.core.path == path) = false) :
    ((Forest.places before.length f).filter (t.IsFileRoot path)).map (Tree.at? · t) =
      (Forest.fileRoots path f).map some := by
  match f with
  | [] => simp [Forest.places, Forest.fileRoots]
  | u :: f =>
    have hu : t.children[before.length]? = some u := by simp [h]
    have hat : (Tree.at? · t) ∘ (before.length :: ·) = (Tree.at? · u) := by
      funext p
      simp [Tree.at?, hu]
    have hroot : (fun p => decide (t.IsFileRoot path p)) ∘ (before.length :: ·) =
        fun p => decide (u.IsFileRoot path p) := by
      funext p
      simp [Tree.isFileRoot_cons, hpath, hu]
    have hhere := Tree.map_at?_filePlaces path u
    have hlater := Forest.map_at?_filePlaces path (t := t) (before ++ [u]) f (by simp [h]) hpath
    rw [List.length_append, List.length_singleton] at hlater
    rw [Tree.filePlaces] at hhere
    rw [Forest.places, Forest.fileRoots, List.filter_append, List.map_append, List.map_append,
      List.filter_map, List.map_map, hat, hroot, hhere, hlater]
end

/-! ## The nodes inside them -/

/-- A node of the file is in a topmost one, the first on the way to it. -/
theorem Tree.exists_isFileRoot (h : t.hasFile path p = true) :
    ∃ q, q <+: p ∧ t.IsFileRoot path q := by
  induction p generalizing t with
  | nil => exact ⟨[], List.nil_prefix, Tree.isFileRoot_nil.2 (by simpa using h)⟩
  | cons i p ih =>
    cases hpath : t.core.path == path with
    | true => exact ⟨[], List.nil_prefix, Tree.isFileRoot_nil.2 hpath⟩
    | false =>
      rw [Tree.hasFile_cons] at h
      obtain ⟨u, hu, hfile⟩ := (Option.any_eq_true ..).1 h
      obtain ⟨q, hq, hroot⟩ := ih hfile
      exact ⟨i :: q, List.cons_prefix_cons.2 ⟨rfl, hq⟩,
        Tree.isFileRoot_cons.2 ⟨hpath, u, hu, hroot⟩⟩

/-- No topmost node is inside another one. -/
theorem Tree.IsFileRoot.eq_of_isPrefix (hp : t.IsFileRoot path p) (hq : t.IsFileRoot path q)
    (h : p <+: q) : p = q :=
  hq.2 p ((List.mem_inits _ _).2 h) hp.1

theorem Tree.mem_filePlaces : p ∈ t.filePlaces path ↔ t.IsFileRoot path p := by
  rw [Tree.filePlaces, List.mem_filter, decide_eq_true_iff]
  refine ⟨And.right, fun h => ⟨?_, h⟩⟩
  obtain ⟨u, hu, -⟩ := (Option.any_eq_true ..).1 h.1
  exact Tree.mem_places hu

theorem Tree.divides_filePlaces (path : Path) (t : Tree) : t.Divides path (t.filePlaces path) where
  ordered := t.pairwise_places.filter _
  hasFile p hp := (Tree.mem_filePlaces.1 hp).1
  apart p hp q hq h := (Tree.mem_filePlaces.1 hp).eq_of_isPrefix (Tree.mem_filePlaces.1 hq) h
  covers p hp := by
    obtain ⟨q, hq, hroot⟩ := Tree.exists_isFileRoot hp
    refine ⟨q, ⟨Tree.mem_filePlaces.2 hroot, hq⟩, fun q' ⟨hmem, hq'⟩ => ?_⟩
    have hroot' := Tree.mem_filePlaces.1 hmem
    -- both are on the way to the same node, so one of them is on the way to the other
    rcases List.prefix_or_prefix_of_prefix hq' hq with h | h
    · exact hroot'.eq_of_isPrefix hroot h
    · exact (hroot.eq_of_isPrefix hroot' h).symm

mutual
/-- A walk through the topmost nodes of a file meets the nodes of the file just as a walk through
the whole tree does. -/
theorem Tree.filter_nodes_fileRoots (path : Path) (t : Tree) :
    (Forest.nodes (t.fileRoots path)).filter (fun u => u.core.path == path) =
      t.nodes.filter fun u => u.core.path == path := by
  cases hpath : t.core.path == path with
  | true => simp [Tree.fileRoots_of_path hpath]
  | false =>
    rw [Tree.fileRoots_of_not_path hpath, t.nodes_eq, List.filter_cons_of_neg (by simp [hpath])]
    match t with
    | .comment core text => rfl
    | .directive core statement => rfl
    | .block core statement children => exact Forest.filter_nodes_fileRoots path children

theorem Forest.filter_nodes_fileRoots (path : Path) (f : Forest) :
    (Forest.nodes (Forest.fileRoots path f)).filter (fun u => u.core.path == path) =
      (Forest.nodes f).filter fun u => u.core.path == path := by
  match f with
  | [] => rfl
  | t :: f =>
    rw [Forest.fileRoots, Forest.nodes_append, Forest.nodes_cons, List.filter_append,
      List.filter_append, Tree.filter_nodes_fileRoots path t, Forest.filter_nodes_fileRoots path f]
end

/-- The nodes of a tree are those at its places, in document order, and what a place leads to by way
of another one is inside the node there. The roots of a file divide the file among them, and a walk
through them meets each node of the file once. -/
theorem Tree.divides_fileRoots (path : Path) (t : Tree) :
    t.places.map (Tree.at? · t) = t.nodes.map some ∧ t.places.Pairwise (· < ·) ∧
      (∀ p q, t.at? (p ++ q) = (t.at? p).bind fun u => u.at? q) ∧
      (t.filePlaces path).map (Tree.at? · t) = (t.fileRoots path).map some ∧
      t.Divides path (t.filePlaces path) ∧
      (Forest.nodes (t.fileRoots path)).filter (fun u => u.core.path == path) =
        t.nodes.filter fun u => u.core.path == path :=
  ⟨t.map_at?_places, t.pairwise_places, t.at?_append, t.map_at?_filePlaces path,
    t.divides_filePlaces path, t.filter_nodes_fileRoots path⟩

/-- A file is included in a block of another one, and that one in a block of the first. -/
example :
    ((DocumentSpec.file ⟨⟨"site.conf"⟩, "<A>\nB 1\n</A>\n"⟩ [
        (⟨[0], 1, false⟩, .file ⟨⟨"extra.conf"⟩, "C 2\n<D>\n</D>\n"⟩ [
          (⟨[1], 0, false⟩, .file ⟨⟨"site.conf"⟩, "E 3\n"⟩ [])])]).assemble.toOption.any
      fun document =>
        let k : Kinship := ⟨⟨[], [], []⟩, 0⟩
        let t := Tree.block (k.core 0 0 document) ⟨"", [], none⟩
          (Forest.ofFragments k 0 1 document.children).1
        t.filePlaces ⟨"site.conf"⟩ == [[]] && t.filePlaces ⟨"extra.conf"⟩ == [[0, 1], [0, 2]]) =
      true := by
  decide +kernel

end HttpdConf
