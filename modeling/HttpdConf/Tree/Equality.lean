import HttpdConf.Tree

/-!
# Equality of nodes

Two nodes are equal when they look the same: their own data and flags, their origins, the live
blocks around them and, for blocks, their children. Paths are compared by their components.

## Main definitions

* `sameChain`: agreement of the blocks around two nodes
* `Tree.compare`: agreement of two nodes and of what is inside them
* `Forest.compareNodes`: equality of nodes
-/

namespace HttpdConf

/-- Agreement of what every node has: the dirty flag, the path and the origin. -/
def Core.same (a b : Core) : Bool :=
  a.dirty == b.dirty && a.path == b.path && a.origin.same b.origin

/-- Agreement of the names and parameters and of what every node has. -/
def Tree.sameLabel (a b : Tree) : Bool :=
  a.name == b.name && a.parameters == b.parameters && a.core.same b.core

/-- Agreement of two chains of blocks, place by place; a block agrees with itself and so does all
around it. -/
def sameChain : List Tree → List Tree → Bool
  | [], [] => true
  | a :: as, b :: bs => a.id == b.id || (a.sameLabel b && sameChain as bs)
  | _, _ => false

/-- Agreement of a node's own data and flags and its origin. Statements also have to be in force
alike. -/
def Tree.sameSelf (inForce inForce' : Bool) : Tree → Tree → Bool
  | .comment core text, .comment core' text' => text == text' && core.same core'
  | .directive core s, .directive core' s' | .block core s _, .block core' s' _ =>
    s.name == s'.name && s.parameters == s'.parameters && inForce == inForce' && core.same core'
  | _, _ => false

mutual
/-- Compare two nodes and what is inside them, given whether each of them is in force. Also tells
the blocks whose children are listed for it: a comparison ends with the first difference.

Children are compared like this too, and not as any two nodes are, which `Forest.compareNodes` does:
it is not asked again whether they are the same node, nor whether the blocks around them agree.
Children of different blocks are different nodes, and their blocks and those around them were found
to agree before. `Workspace.Sound.compareNodes_iff_children` says that the answers are the same. -/
def Tree.compare (inForce inForce' : Bool) : Tree → Tree → Bool × List NodeId
  | .block core statement children, b =>
    let a := Tree.block core statement children
    if !a.sameSelf inForce inForce' b then (false, [])
    else if children.length != b.children.length then (false, [core.id, b.id])
    else
      let (equal, listed) := Forest.compare (inForce && a.isActive) (inForce' && b.isActive)
        children b.children
      (equal, core.id :: b.id :: listed)
  | .comment core text, b => ((Tree.comment core text).sameSelf inForce inForce' b, [])
  | .directive core statement, b =>
    ((Tree.directive core statement).sameSelf inForce inForce' b, [])

/-- Compare two lists of nodes, place by place. -/
def Forest.compare (inForce inForce' : Bool) : Forest → Forest → Bool × List NodeId
  | [], [] => (true, [])
  | a :: as, b :: bs =>
    match a.compare inForce inForce' b with
    | (false, listed) => (false, listed)
    | (true, listed) =>
      let (equal, more) := Forest.compare inForce inForce' as bs
      (equal, listed ++ more)
  | _, _ => (false, [])
end

/-- Compare two nodes of a forest: a node is equal to itself, and to another one that looks the same
inside and has blocks around it that look the same. -/
def Forest.compareNodes (f : Forest) (a b : Tree) : Bool × List NodeId :=
  if a.id == b.id then (true, [])
  else if sameChain (f.lineage a.core) (f.lineage b.core) then
    a.compare (f.enabled a) (f.enabled b) b
  else (false, [])

end HttpdConf
