import HttpdConf.Fragment
import HttpdConf.Policy

/-!
# Live trees

A live tree is what configuration text becomes when it can be searched and edited: comments,
directives, and blocks with their children. Nesting is structural. The block a node was made
under is also known by its number, because a node that was taken out of its block remembers it.

The lineage of a node are the live blocks around it, from the one it was made under to the
outermost. A block that is no longer alive ends the lineage, and so does a node without ancestor.

## Main definitions

* `Origin`: the fragment a node comes from
* `Core`: what every node has
* `Statement`: the name and parameters of a directive or block
* `Tree`, `Forest`
* `Tree.nodes`: the nodes of a tree in document order
* `Forest.trail?`, `Forest.find?`: the node of a number, with and without the blocks it is nested in
* `Tree.reached`: the nodes that can be reached through nodes with a property
* `Forest.mapCores`, `Forest.mapStatements`, `Forest.update`: changes in place
* `Forest.ofFragments`: the trees of parsed fragments
* `Forest.lineage`: the live blocks around a node, nearest first
* `Forest.root`, `Forest.depth`: the outermost of them, and how deep the node is nested
* `Forest.enabled`: whether a node is in force
* `Forest.findAncestors`: the blocks of a name around a node
-/

namespace HttpdConf

/-- The number of a node. Numbers are given in the order in which nodes are made. -/
abbrev NodeId := Nat

/-- The fragment a node comes from. A synthetic node was added later: it has no parsed text, and
its fragment is that of the block it was added to. -/
structure Origin where
  fragment : Fragment
  synthetic : Bool

namespace Origin

/-- The origin of a parsed node. -/
def parsed (fragment : Fragment) : Origin := ⟨fragment, false⟩

/-- The origin of a node added under one with this origin. -/
def derived (o : Origin) : Origin := { o with synthetic := true }

/-- Whether this is a whole parsed file. -/
def isDocument (o : Origin) : Bool := !o.synthetic && o.fragment.kind == .document

/-- Whether the origins have the same content. -/
def same (a b : Origin) : Bool := a.synthetic == b.synthetic && a.fragment.same b.fragment

end Origin

/-- What every node has. -/
structure Core where
  id : NodeId
  /-- the block the node was made under -/
  ancestor : Option NodeId
  path : Path
  origin : Origin
  policy : Policy
  /-- the journal that checkpoints of the node's tree go to -/
  journal : Nat
  /-- the node or one inside it has a change that is not saved -/
  dirty : Bool
  /-- the node itself has a change that is not saved -/
  modified : Bool

/-- The name and parameters of a directive or block. `standing` is whether it was in force when it
was made or first listed; it counts once the block around it is gone. -/
structure Statement where
  name : String
  parameters : List String
  standing : Option Bool
  deriving DecidableEq, Repr

/-- The statement as one line of text. -/
def Statement.line (s : Statement) : String :=
  s.parameters.foldl (fun line p => line ++ " " ++ p) s.name

inductive Tree where
  | comment (core : Core) (text : String)
  | directive (core : Core) (statement : Statement)
  | block (core : Core) (statement : Statement) (children : List Tree)

abbrev Forest := List Tree

namespace Tree

def core : Tree → Core
  | comment core _ => core
  | directive core _ => core
  | block core _ _ => core

def id (t : Tree) : NodeId := t.core.id

def statement? : Tree → Option Statement
  | comment _ _ => none
  | directive _ statement => some statement
  | block _ statement _ => some statement

/-- The name of a directive or block; comments have none. -/
def name (t : Tree) : String := (t.statement?.map Statement.name).getD ""

def parameters (t : Tree) : List String := (t.statement?.map Statement.parameters).getD []

def children : Tree → Forest
  | block _ _ children => children
  | _ => []

def isBlock : Tree → Bool
  | block _ _ _ => true
  | _ => false

def isDirective : Tree → Bool
  | directive _ _ => true
  | _ => false

/-- Whether the node's own condition is known to hold; only blocks have one. -/
def isActive : Tree → Bool
  | block core statement _ => core.policy.isActive statement.name statement.parameters
  | _ => true

/-- Whether the node was in force when it was made or first listed. -/
def standing (t : Tree) : Bool := (t.statement?.bind Statement.standing).getD true

end Tree

/-! ## Nodes -/

mutual
/-- The node and all nodes inside it, in document order. -/
def Tree.nodes : Tree → List Tree
  | .block core statement children =>
    .block core statement children :: Forest.nodes children
  | .comment core text => [.comment core text]
  | .directive core statement => [.directive core statement]

/-- The nodes of all trees, in document order. -/
def Forest.nodes : Forest → List Tree
  | [] => []
  | t :: rest => t.nodes ++ Forest.nodes rest
end

mutual
/-- The node of a tree with a number, and the blocks it is nested in, nearest first; `around` are
those around the tree. -/
def Tree.trailFrom? (around : List Tree) (id : NodeId) : Tree → Option (Tree × List Tree)
  | .block core statement children =>
    let t := Tree.block core statement children
    if core.id == id then some (t, around) else Forest.trailFrom? (t :: around) id children
  | .comment core text => if core.id == id then some (.comment core text, around) else none
  | .directive core statement =>
    if core.id == id then some (.directive core statement, around) else none

def Forest.trailFrom? (around : List Tree) (id : NodeId) : Forest → Option (Tree × List Tree)
  | [] => none
  | t :: rest =>
    match t.trailFrom? around id with
    | some trail => some trail
    | none => Forest.trailFrom? around id rest
end

/-- The node with a number, if it is alive, and the blocks it is nested in, nearest first. -/
def Forest.trail? (f : Forest) (id : NodeId) : Option (Tree × List Tree) :=
  Forest.trailFrom? [] id f

/-- The node with a number, if it is alive. -/
def Forest.find? (f : Forest) (id : NodeId) : Option Tree := (f.trail? id).map Prod.fst

mutual
theorem Tree.fst_trailFrom? (around : List Tree) (id : NodeId) (t : Tree) :
    (t.trailFrom? around id).map Prod.fst = t.nodes.find? (·.id == id) := by
  match t with
  | .comment core text =>
    by_cases h : core.id = id <;> simp [Tree.trailFrom?, Tree.nodes, Tree.id, Tree.core, h]
  | .directive core statement =>
    by_cases h : core.id = id <;> simp [Tree.trailFrom?, Tree.nodes, Tree.id, Tree.core, h]
  | .block core statement children =>
    have inside := Forest.fst_trailFrom? (.block core statement children :: around) id children
    by_cases h : core.id = id <;>
      simp [Tree.trailFrom?, Tree.nodes, Tree.id, Tree.core, h, inside]

theorem Forest.fst_trailFrom? (around : List Tree) (id : NodeId) (f : Forest) :
    (Forest.trailFrom? around id f).map Prod.fst = (Forest.nodes f).find? (·.id == id) := by
  match f with
  | [] => simp [Forest.trailFrom?, Forest.nodes]
  | t :: rest =>
    have here := Tree.fst_trailFrom? around id t
    have later := Forest.fst_trailFrom? around id rest
    rw [Forest.trailFrom?, Forest.nodes, List.find?_append, ← here, ← later]
    cases t.trailFrom? around id <;> simp
end

/-- The node with a number is the first one in document order that has it. -/
theorem Forest.find?_eq (f : Forest) (id : NodeId) :
    f.find? id = (Forest.nodes f).find? (·.id == id) :=
  Forest.fst_trailFrom? [] id f

mutual
/-- The nodes that can be reached from the top through nodes with the property, all of which have
it. -/
def Tree.reached (p : Core → Bool) : Tree → List Tree
  | .block core statement children =>
    if p core then .block core statement children :: Forest.reached p children else []
  | .comment core text => if p core then [.comment core text] else []
  | .directive core statement => if p core then [.directive core statement] else []

def Forest.reached (p : Core → Bool) : Forest → List Tree
  | [] => []
  | t :: rest => t.reached p ++ Forest.reached p rest
end

/-- The numbers of the blocks among some nodes. -/
def blockIds (ts : List Tree) : List NodeId := (ts.filter Tree.isBlock).map Tree.id

/-! ## Changes in place -/

mutual
/-- Change what every node has. -/
def Tree.mapCores (g : Core → Core) : Tree → Tree
  | .comment core text => .comment (g core) text
  | .directive core statement => .directive (g core) statement
  | .block core statement children => .block (g core) statement (Forest.mapCores g children)

def Forest.mapCores (g : Core → Core) : Forest → Forest
  | [] => []
  | t :: rest => t.mapCores g :: Forest.mapCores g rest
end

mutual
/-- Change the statements of directives and blocks. -/
def Tree.mapStatements (g : Core → Statement → Statement) : Tree → Tree
  | .comment core text => .comment core text
  | .directive core statement => .directive core (g core statement)
  | .block core statement children =>
    .block core (g core statement) (Forest.mapStatements g children)

def Forest.mapStatements (g : Core → Statement → Statement) : Forest → Forest
  | [] => []
  | t :: rest => t.mapStatements g :: Forest.mapStatements g rest
end

mutual
/-- Change the node with a number, and what is inside it. -/
def Tree.update (id : NodeId) (g : Tree → Tree) : Tree → Tree
  | .block core statement children =>
    if core.id == id then g (.block core statement children)
    else .block core statement (Forest.update id g children)
  | .comment core text => if core.id == id then g (.comment core text) else .comment core text
  | .directive core statement =>
    if core.id == id then g (.directive core statement) else .directive core statement

def Forest.update (id : NodeId) (g : Tree → Tree) : Forest → Forest
  | [] => []
  | t :: rest => t.update id g :: Forest.update id g rest
end

/-- Replace the children of a block. -/
def Tree.withChildren (g : Forest → Forest) : Tree → Tree
  | .block core statement children => .block core statement (g children)
  | t => t

/-! ## Trees of fragments -/

/-- What the nodes of one tree share. -/
structure Kinship where
  policy : Policy
  journal : Nat

/-- A parsed node without changes. -/
def Kinship.core (k : Kinship) (id : NodeId) (ancestor : NodeId) (fragment : Fragment) : Core where
  id := id
  ancestor := some ancestor
  path := fragment.source.path
  origin := .parsed fragment
  policy := k.policy
  journal := k.journal
  dirty := false
  modified := false

mutual
/-- The tree of a fragment under a block, numbered from `next` on, and the next free number. A
document inside another one has no node. -/
def Tree.ofFragment (k : Kinship) (ancestor next : NodeId) : Fragment → Option Tree × NodeId
  | ⟨source, kind, span, leading, header, trailing, footer, children⟩ =>
    let core := k.core next ancestor
      ⟨source, kind, span, leading, header, trailing, footer, children⟩
    match kind with
    | .document => (none, next)
    | .comment text => (some (.comment core text), next + 1)
    | .directive name arguments => (some (.directive core ⟨name, arguments, none⟩), next + 1)
    | .block name arguments =>
      let (inside, next') := Forest.ofFragments k next (next + 1) children
      (some (.block core ⟨name, arguments, none⟩ inside), next')

/-- The trees of fragments under a block, and the next free number. -/
def Forest.ofFragments (k : Kinship) (ancestor next : NodeId) : List Fragment → Forest × NodeId
  | [] => ([], next)
  | f :: rest =>
    let (t?, next) := Tree.ofFragment k ancestor next f
    let (ts, next) := Forest.ofFragments k ancestor next rest
    (t?.toList ++ ts, next)
end

/-! ## Lineages -/

namespace Forest

/-- The block of the given number and the live blocks around it, following the links of at most
`limit` nodes that are nested in nothing. -/
def lineageUpTo (f : Forest) : Nat → Option NodeId → List Tree
  | 0, _ => []
  | _ + 1, none => []
  | limit + 1, some id =>
    match f.trail? id with
    | none => []
    | some (block, around) =>
      let top := around.getLast?.getD block
      block :: around ++ lineageUpTo f limit top.core.ancestor

/-- The live blocks around a node, nearest first. Nested blocks are around what they contain, and
the outermost of them goes on with the block it was made under. A block is older than what is made
under it, so there are at most as many links to follow as the number of the node. -/
def lineage (f : Forest) (core : Core) : List Tree :=
  lineageUpTo f core.id core.ancestor

/-- The outermost live block around a node, or the node itself. -/
def root (f : Forest) (t : Tree) : Tree := (f.lineage t.core).getLast?.getD t

/-- The number of live blocks around a node, not counting the outermost. -/
def depth (f : Forest) (t : Tree) : Nat := (f.lineage t.core).length - 1

/-- A node is in force when all live blocks around it are active and the outermost of them was in
force when it was made or first listed; alone, when it was itself in force then. -/
def enabled (f : Forest) (t : Tree) : Bool :=
  (f.lineage t.core).all Tree.isActive && (f.root t).standing

/-- The blocks of a name around a node, nearest first. An unnamed block never matches. -/
def findAncestors (f : Forest) (t : Tree) (name : String) : List Tree :=
  (f.lineage t.core).filter fun block => block.name != "" && Text.sameName block.name name

end Forest

end HttpdConf
