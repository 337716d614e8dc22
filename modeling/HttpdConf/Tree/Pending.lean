import HttpdConf.Tree

/-!
# Pending changes

`modified` marks a node with a change of its own that is not saved, `dirty` a node with such a
change in it or below it. A dirty node has dirty blocks around it, so a node that is not dirty
has nothing pending below it.

## Main definitions

* `Forest.markModified`: record a change of a node
* `Tree.unsavedFiles`: the files with pending changes
* `Tree.fileRoots`: the topmost nodes of a file
* `Tree.settle`: forget the pending changes of written files
* `Tree.markClean`: forget all pending changes
-/

namespace HttpdConf

/-- Mark the live blocks around a node as dirty. -/
def Forest.markDirtyAbove (f : Forest) (core : Core) : Forest :=
  let around := (f.lineage core).map Tree.id
  f.mapCores fun c => if around.contains c.id then { c with dirty := true } else c

/-- Record a change of a node: it is modified, and it and the live blocks around it are dirty. -/
def Forest.markModified (f : Forest) (core : Core) : Forest :=
  let around := (f.lineage core).map Tree.id
  f.mapCores fun c =>
    if c.id == core.id then { c with dirty := true, modified := true }
    else if around.contains c.id then { c with dirty := true }
    else c

/-- Nodes with pending changes in or below them, as far as a tree tells by its flags. -/
def Tree.dirtyNodes (t : Tree) : List Tree := t.reached Core.dirty

/-- The files of the modified nodes of a tree, in ascending order. -/
def Tree.unsavedFiles (t : Tree) : List Path :=
  (t.dirtyNodes.filter fun u => u.core.modified).foldl (fun files u => u.core.path.insert files) []

mutual
/-- The nodes of a file that are not inside other nodes of it. -/
def Tree.fileRoots (path : Path) : Tree → List Tree
  | .block core statement children =>
    if core.path == path then [.block core statement children]
    else Forest.fileRoots path children
  | .comment core text => if core.path == path then [.comment core text] else []
  | .directive core statement => if core.path == path then [.directive core statement] else []

def Forest.fileRoots (path : Path) : Forest → List Tree
  | [] => []
  | t :: rest => t.fileRoots path ++ Forest.fileRoots path rest
end

/-- The blocks whose children are listed to find the roots of a file. -/
def Tree.fileRootsListed (path : Path) (t : Tree) : List NodeId :=
  blockIds (t.reached fun core => !(core.path == path))

/-- The flags of a dirty node after some files were written, given whether something below it is
still dirty. -/
def Core.settle (written : List Path) (below : Bool) (core : Core) : Core :=
  let modified := core.modified && !written.any (· == core.path)
  { core with modified, dirty := modified || below }

mutual
/-- Forget the pending changes of written files. -/
def Tree.settle (written : List Path) : Tree → Tree
  | .comment core text =>
    if core.dirty then .comment (core.settle written false) text else .comment core text
  | .directive core statement =>
    if core.dirty then .directive (core.settle written false) statement
    else .directive core statement
  | .block core statement children =>
    if core.dirty then
      let children := Forest.settle written children
      .block (core.settle written (children.any fun t => t.core.dirty)) statement children
    else .block core statement children

def Forest.settle (written : List Path) : Forest → Forest
  | [] => []
  | t :: rest => t.settle written :: Forest.settle written rest
end

/-- Whether a node has a flag to clear. -/
def Core.isUnclean (core : Core) : Bool := core.dirty || core.modified

/-- The node without pending changes. -/
def Core.clean (core : Core) : Core := { core with dirty := false, modified := false }

mutual
/-- Forget all pending changes, as far as the flags lead. -/
def Tree.markClean : Tree → Tree
  | .comment core text => .comment core.clean text
  | .directive core statement => .directive core.clean statement
  | .block core statement children =>
    if core.isUnclean then .block core.clean statement (Forest.markClean children)
    else .block core statement children

def Forest.markClean : Forest → Forest
  | [] => []
  | t :: rest => t.markClean :: Forest.markClean rest
end

end HttpdConf
