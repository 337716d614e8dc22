import HttpdConf.Tree

/-!
# Lifetimes

A node is alive while somebody holds it or while it is among the children of a live block. When a
block ends, its children that are held go on without it; they are then in force if they were so
when they were first listed.

## Main definitions

* `Forest.list`: the children of some blocks are listed, and remember whether they are in force
* `Forest.sweep`: what stays alive when only some nodes are held
-/

namespace HttpdConf

/-- The node remembers whether it is in force, unless it already does. -/
def Statement.remember (inForce : Bool) (s : Statement) : Statement :=
  { s with standing := some (s.standing.getD inForce) }

/-- A child of a block is listed; `inside` tells whether what is inside the block is in force. -/
def Tree.remember (inside : Bool) : Tree → Tree
  | .comment core text => .comment core text
  | .directive core statement => .directive core (statement.remember inside)
  | .block core statement children => .block core (statement.remember inside) children

mutual
/-- The children of the blocks with the given numbers are listed, in a tree that is in force or
not. -/
def Tree.list (blocks : List NodeId) (inForce : Bool) : Tree → Tree
  | .comment core text => .comment core text
  | .directive core statement => .directive core statement
  | .block core statement children =>
    let inside := inForce && core.policy.isActive statement.name statement.parameters
    let children := Forest.listInside blocks inside children
    .block core statement
      (if blocks.contains core.id then children.map (Tree.remember inside) else children)

def Forest.listInside (blocks : List NodeId) (inForce : Bool) : Forest → Forest
  | [] => []
  | t :: rest => t.list blocks inForce :: Forest.listInside blocks inForce rest
end

/-- List the children of the blocks with the given numbers: those not listed before remember whether
they are in force. -/
def Forest.list (f : Forest) (blocks : List NodeId) : Forest :=
  List.map (fun t => t.list blocks (f.enabled t)) f

mutual
/-- What stays alive of a tree whose top is held by nothing but the given holders. -/
def Tree.sweep (held : List NodeId) : Tree → Forest
  | .block core statement children =>
    if held.contains core.id then [.block core statement children]
    else Forest.sweep held children
  | .comment core text => if held.contains core.id then [.comment core text] else []
  | .directive core statement =>
    if held.contains core.id then [.directive core statement] else []

/-- What stays alive when only the nodes with the given numbers are held. -/
def Forest.sweep (held : List NodeId) : Forest → Forest
  | [] => []
  | t :: rest => t.sweep held ++ Forest.sweep held rest
end

end HttpdConf
