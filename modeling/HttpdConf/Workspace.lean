import HttpdConf.Error
import HttpdConf.Tree.Lifetime
import HttpdConf.Tree.Pending
import HttpdConf.Tree.Render
import HttpdConf.Tree.Search

/-!
# Workspaces

A workspace holds the live trees and the checkpoints recorded for them. All edits of trees are
made here; each is all or nothing.

## Main definitions

* `Workspace`, `Checkpoint`
* `Workspace.construct`: a new node that is in no block
* `Workspace.addChild`, `Workspace.deleteChild`, `Workspace.setParameters`
* `Workspace.save`, `Workspace.markClean`
* `Writer`, `Store`: what the nodes of a file are handed to, and the texts of written files
* `Workspace.writeUnsaved`: hand the files with pending changes to a writer
-/

namespace HttpdConf

/-- A record of the files with pending changes at some moment. -/
structure Checkpoint where
  message : String
  files : List Path

/-- The live trees, the next free number and the checkpoints with the journals they belong to. -/
structure Workspace where
  forest : Forest
  next : NodeId
  journal : List (Nat × Checkpoint)

/-- What a new node says. -/
inductive NodeContent where
  | comment (text : String)
  | directive (name : String) (parameters : List String)
  | block (name : String) (parameters : List String)

/-- The name of a new directive or block. -/
def NodeContent.name? : NodeContent → Option String
  | comment _ => none
  | directive name _ => some name
  | block name _ => some name

/-- The node with this content. -/
def NodeContent.tree (content : NodeContent) (core : Core) (standing : Bool) (children : Forest) :
    Tree :=
  match content with
  | comment text => .comment core text
  | directive name parameters => .directive core ⟨name, parameters, some standing⟩
  | block name parameters => .block core ⟨name, parameters, some standing⟩ children

/-- How a new node is linked: the block it refers to as its ancestor, its file, whether it counts as
changed, the fragment it wraps and the policy of a new tree. -/
structure Blueprint where
  ancestor : Option NodeId
  path : Option Path
  dirty : Bool
  origin : Option Origin
  policy : Option Policy

namespace Workspace

/-- No trees yet. -/
def empty : Workspace := ⟨[], 0, []⟩

/-- The children of some blocks are listed. -/
def list (w : Workspace) (blocks : List NodeId) : Workspace :=
  { w with forest := w.forest.list blocks }

/-- Make a node that is in no block. A block that wraps parsed text has the children of its
fragment. -/
def construct (w : Workspace) (b : Blueprint) (content : NodeContent) (standing : Bool) :
    Except Error (Tree × Workspace) :=
  match b.origin with
  | none => .error (.invalidConstruction .noOrigin)
  | some origin =>
    let path := b.path.getD origin.fragment.source.path
    if path.text.isEmpty then .error (.invalidConstruction .noFile)
    else
      let kin : Kinship := match b.ancestor.bind w.forest.find? with
        | some block => ⟨block.core.policy, block.core.journal⟩
        | none => ⟨b.policy.getD Policy.default, w.next⟩
      let core : Core :=
        { id := w.next, ancestor := b.ancestor, path, origin, policy := kin.policy,
          journal := kin.journal, dirty := b.dirty, modified := b.dirty }
      let (children, next) : Forest × NodeId :=
        match content with
        | .block _ _ =>
          if origin.synthetic then ([], w.next + 1)
          else Forest.ofFragments kin w.next (w.next + 1) origin.fragment.children
        | _ => ([], w.next + 1)
      let t := content.tree core standing children
      let forest : Forest := t :: w.forest
      .ok (t, { w with
        forest := if b.dirty then forest.markDirtyAbove core else forest
        next })

/-- The root block of a parsed file. -/
def openDocument (w : Workspace) (document : Fragment) (policy : Policy) :
    Except Error (Tree × Workspace) :=
  w.construct ⟨none, none, false, some (.parsed document), some policy⟩ (.block "" []) true

/-- Whether what is inside a block is in force. -/
def enabledInside (w : Workspace) (block : Tree) : Bool :=
  w.forest.enabled block && block.isActive

/-- What a node added to a block has. -/
def childCore (w : Workspace) (block : Tree) : Core where
  id := w.next
  ancestor := some block.id
  path := block.core.path
  origin := block.core.origin.derived
  policy := block.core.policy
  journal := block.core.journal
  dirty := true
  modified := true

/-- Add a node to a block at a position, or at the end. -/
def addChild (w : Workspace) (block : Tree) (content : NodeContent) (position : Option Nat) :
    Except Error (Tree × Workspace) :=
  if content.name? == some "" then .error .emptyName
  else
    let length := block.children.length
    let index := position.getD length
    if length < index then .error (.indexOutOfRange index length)
    else
      let t := content.tree (w.childCore block) (w.enabledInside block) []
      let forest := w.forest.update block.id
        (Tree.withChildren fun children => children.insertIdx index t)
      .ok (t, { w with forest := forest.markModified block.core, next := w.next + 1 })

/-- Take a node out of the children of a block. The node keeps its link to the block. -/
def deleteChild (w : Workspace) (block : Tree) (child : NodeId) : Except Error Workspace :=
  match List.find? (fun u => u.id == child) block.children with
  | none => .error .notFound
  | some t =>
    let forest := w.forest.update block.id
      (Tree.withChildren fun children => children.filter fun u => u.id != child)
    .ok { w with forest := Forest.markModified (t :: forest) block.core }

/-- Replace the parameters of a directive or block. -/
def setParameters (w : Workspace) (t : Tree) (parameters : List String) :
    Except Error Workspace :=
  if t.name == "" then .error .emptyName
  else
    let forest := w.forest.mapStatements fun core statement =>
      if core.id == t.id then { statement with parameters } else statement
    .ok { w with forest := forest.markModified t.core }

/-- Record a checkpoint of a node's pending changes, if it has any. -/
def save (w : Workspace) (t : Tree) (message : String) : Option Checkpoint × Workspace :=
  if t.core.dirty then
    let checkpoint : Checkpoint := ⟨message, t.unsavedFiles⟩
    (some checkpoint, { w with journal := w.journal ++ [(t.core.journal, checkpoint)] })
  else (none, w)

/-- The checkpoints of a node's tree. -/
def checkpoints (w : Workspace) (t : Tree) : List Checkpoint :=
  w.journal.filterMap fun (journal, checkpoint) =>
    if journal == t.core.journal then some checkpoint else none

/-- Forget the pending changes of a tree without writing them. -/
def markClean (w : Workspace) (t : Tree) : Workspace :=
  { w with forest := w.forest.update t.id Tree.markClean }

end Workspace

/-! ## Writers -/

/-- Takes the nodes of files. A writer is handed the nodes with the live trees that they stand in,
and may list the children of blocks there. It tells for which blocks it did, and changes nothing
else in the trees. -/
structure Writer (m : Type → Type) where
  write : Path → Forest → List Tree → m (Except Error Unit × List NodeId)

/-- The writer that takes the nodes of a file as their text. -/
def Writer.ofText {m : Type → Type} [Monad m] (put : Path → String → m (Except Error Unit)) :
    Writer m where
  write path f nodes := do
    let result ← put path (f.render nodes)
    return (result, (nodes.map Tree.renderListed).flatten)

/-- Written texts under their paths, in ascending order. A file that is written again keeps the
spelling of its path. -/
structure Store where
  files : List (Path × String)

namespace Store

def empty : Store := ⟨[]⟩

/-- Put a text under a path in an ascending list. -/
def putIn (path : Path) (text : String) : List (Path × String) → List (Path × String)
  | [] => [(path, text)]
  | (p, t) :: rest =>
    match path.compare p with
    | .lt => (path, text) :: (p, t) :: rest
    | .eq => (p, text) :: rest
    | .gt => (p, t) :: putIn path text rest

def put (s : Store) (path : Path) (text : String) : Store := ⟨putIn path text s.files⟩

/-- The text under a path. -/
def get? (s : Store) (path : Path) : Option String :=
  (s.files.find? fun (p, _) => p == path).map Prod.snd

/-- The writer that keeps the texts of files. -/
def writer : Writer (StateM Store) :=
  .ofText fun path text => do
    modify fun store => store.put path text
    return .ok ()

end Store

/-! ## Writing -/

namespace Workspace

/-- Hand files of the tree below `root` to a writer until one fails. Also tells the blocks whose
children were listed for it. -/
def writeFiles {m : Type → Type} [Monad m] (writer : Writer m) (f : Forest) (root : Tree) :
    List Path → m (Except Error Unit × List NodeId)
  | [] => pure (.ok (), [])
  | path :: rest => do
    let (result, listed) ← writer.write path f (root.fileRoots path)
    let listed := root.fileRootsListed path ++ listed
    match result with
    | .error e => pure (.error e, listed)
    | .ok () =>
      let (result, more) ← writeFiles writer f root rest
      pure (result, listed ++ more)

/-- Hand every file with pending changes in a tree to a writer. Only when all are written, their
changes count as saved. -/
def writeUnsaved {m : Type → Type} [Monad m] (writer : Writer m) (w : Workspace) (t : Tree) :
    m (Except Error (List Path) × Workspace) := do
  let files := t.unsavedFiles
  let listed := blockIds t.dirtyNodes
  if files.isEmpty then pure (.ok [], w.list listed)
  else
    let root := w.forest.root t
    if !root.core.origin.isDocument then
      pure (.error (.invalidConstruction .rootGone), w.list listed)
    else
      let (result, more) ← writeFiles writer w.forest root files
      match result with
      | .error e => pure (.error e, w.list (listed ++ more))
      | .ok () =>
        let w := w.list (listed ++ more ++ blockIds root.dirtyNodes)
        pure (.ok files, { w with forest := w.forest.update root.id (Tree.settle files) })

end Workspace

end HttpdConf
