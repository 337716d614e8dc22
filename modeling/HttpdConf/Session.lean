import HttpdConf.Session.Document
import HttpdConf.Settings.Json
import HttpdConf.Tree.Equality
import HttpdConf.Workspace

/-!
# Sessions

A session is a workspace together with named handles, each of which holds one node, and the
files written so far. It goes on by actions, each of which has an answer. After every action, only
what the handles hold, and what is inside of it, stays alive.

## Main definitions

* `Session`, `Target`, `Action`, `Answer`
* `Session.perform`: the effect and the answer of an action
-/

namespace HttpdConf

/-- A node, by a handle and child indices from its node; an index that is not a number of 64 bits
leads nowhere. -/
structure Target where
  handle : String
  steps : List (Option Nat)

/-- The number that a text writes in base ten, if it is one of 64 bits. -/
def number? (cs : List Char) : Option Nat :=
  let digits := match cs with
    | '+' :: rest => rest
    | _ => cs
  let value := digits.foldl (fun n c => 10 * n + (c.toNat - '0'.toNat)) 0
  if !digits.isEmpty && digits.all Char.isDigit && value < UInt64.size then some value else none

/-- Targets are written `handle/2/0`. -/
def Target.ofText (text : String) : Target :=
  match Path.segments text.toList with
  | [] => ⟨"", []⟩
  | handle :: steps => ⟨String.ofList handle, steps.map number?⟩

structure Session where
  workspace : Workspace
  handles : List (String × NodeId)
  store : Store

/-- Where the fragment of a new node comes from. -/
inductive OriginSpec where
  /-- the origin of another node -/
  | ofNode (target : Target)
  | ofDocument (spec : DocumentSpec)

/-- How a new node is linked. The settings of a policy are given as JSON text. -/
structure BlueprintSpec where
  ancestor : Option Target
  path : Option Path
  dirty : Bool
  origin : Option OriginSpec
  settings : Option String

/-- Which writer takes the files. -/
inductive WriterKind where
  /-- the session's store, which may refuse one path -/
  | store (refused : Option Path)
  /-- a place that cannot be written to -/
  | unreachable

/-- One step of a session. `hold` is the handle that the resulting node is stored under, or the
start of the handles of the resulting nodes. -/
inductive Action where
  | openDocument (spec : DocumentSpec) (settings : Option String) (hold : Option String)
  | construct (blueprint : BlueprintSpec) (content : NodeContent) (standing : Bool)
      (hold : Option String)
  | get (target : Target) (hold : Option String)
  | dump (target : Target)
  | children (target : Target) (hold : Option String)
  | ancestor (target : Target) (hold : Option String)
  | root (target : Target) (hold : Option String)
  | origin (target : Target)
  | policy (target : Target)
  | findAncestors (target : Target) (name : String) (hold : Option String)
  | findBlocks (target : Target) (name : String) (exclude : Bool) (hold : Option String)
  | findDirectives (target : Target) (name : String) (exclude : Bool) (hold : Option String)
  | findComments (target : Target) (text : String) (exact : Bool) (hold : Option String)
  | add (target : Target) (content : NodeContent) (position : Option Nat) (hold : Option String)
  | delete (target child : Target)
  | setParameters (target : Target) (parameters : List String) (hold : Option String)
  | compare (a b : Target)
  | render (targets : List Target)
  | unsaved (target : Target)
  | save (target : Target) (message : String)
  | checkpoints (target : Target)
  | markClean (target : Target)
  | write (target : Target) (writer : WriterKind)
  | written (path : Path)
  | drop (handles : List String)

/-- Why an action failed. -/
inductive ActionFault where
  | noTarget
  | notBlock
  | notDirective
  | document (fault : DocumentFault)
  | tree (e : Error)

/-- The answer to an action. Nodes are answered with the forest they are in. -/
inductive Answer where
  | node (scene : Forest) (t : Tree)
  | noNode
  | nodes (scene : Forest) (ts : List Tree)
  | tree (scene : Forest) (t : Tree)
  | origin (o : Origin)
  | policy (p : Policy)
  | left (count : Nat)
  | comparison (equal identical sameOrigin : Bool)
  | text (s : String)
  | files (paths : List Path)
  | checkpoint (c : Option Checkpoint)
  | checkpoints (cs : List Checkpoint)
  | dirty (flag : Bool)
  | written (result : Except Error (List Path)) (store : Store)
  | stored (text : Option String)
  | handles (names : List String)
  | failed (fault : ActionFault)

/-- A part of an action: it may change the session, and may fail; what it changed before stays. -/
abbrev Step := ExceptT ActionFault (StateM Session)

namespace Session

/-- Nothing is open. -/
def start : Session := ⟨Workspace.empty, [], Store.empty⟩

def forest (s : Session) : Forest := s.workspace.forest

/-- Only what the handles hold stays alive. -/
def sweep (s : Session) : Session :=
  { s with workspace := { s.workspace with
      forest := s.forest.sweep (s.handles.map Prod.snd) } }

/-- Store a node under a handle. -/
def hold (s : Session) (name : String) (id : NodeId) : Session :=
  { s with handles := (name, id) :: s.handles.filter fun (other, _) => other != name }

end Session

namespace Step

/-- Children of blocks are listed. -/
def list (blocks : List NodeId) : Step Unit :=
  modify fun s => { s with workspace := s.workspace.list blocks }

/-- The present state of a node. -/
def refresh (t : Tree) : Step Tree :=
  return ((← get).forest.find? t.id).getD t

/-- Go from a node to a descendant by child indices, listing the children of every block on the
way. -/
def descend : Tree → List (Option Nat) → List NodeId × Option Tree
  | t, [] => ([], some t)
  | .block core _ children, some i :: steps =>
    match children[i]? with
    | none => ([core.id], none)
    | some child =>
      let (listed, found) := descend child steps
      (core.id :: listed, found)
  | _, _ => ([], none)

/-- The node of a target. -/
def resolve (target : Target) : Step Tree := do
  let s ← get
  match (s.handles.lookup target.handle).bind s.forest.find? with
  | none => throw .noTarget
  | some top =>
    let (listed, found) := descend top target.steps
    list listed
    match found with
    | none => throw .noTarget
    | some t => refresh t

/-- The node of a target that has to be a block. -/
def resolveBlock (target : Target) : Step Tree := do
  let t ← resolve target
  if t.isBlock then return t else throw .notBlock

/-- Fail with an error of trees, or go on. -/
def ofExcept {α : Type} : Except Error α → Step α
  | .ok a => return a
  | .error e => throw (.tree e)

/-- Take over a changed workspace. -/
def install (w : Workspace) : Step Unit := modify fun s => { s with workspace := w }

/-- Answer a node, and store it under the handle. -/
def answerNode (hold : Option String) (t : Tree) : Step Answer := do
  let t ← refresh t
  let scene := (← get).forest
  match hold with
  | some name => modify fun s => s.hold name t.id
  | none => pure ()
  return .node scene t

/-- Answer some nodes, and store each under the handle with its index. -/
def answerNodes (hold : Option String) (ts : List Tree) : Step Answer := do
  let ts ← ts.mapM refresh
  let scene := (← get).forest
  match hold with
  | some name => modify fun s =>
      ts.zipIdx.foldl (fun s (t, i) => s.hold (name ++ toString i) t.id) s
  | none => pure ()
  return .nodes scene ts

/-- The policy of JSON settings, or the one without any. -/
def readPolicy : Option String → Step Policy
  | none => return Policy.default
  | some text => ofExcept (Policy.ofJson text)

/-- The document of a file with its included files. -/
def assemble (spec : DocumentSpec) : Step Fragment :=
  match spec.assemble with
  | .ok document => return document
  | .error fault => throw (.document fault)

def readOrigin : OriginSpec → Step Origin
  | .ofNode target => return (← resolve target).core.origin
  | .ofDocument spec => return .parsed (← assemble spec)

/-- The linkage of a new node, its parts read one after the other. -/
def readBlueprint (b : BlueprintSpec) : Step Blueprint := do
  let ancestor ← b.ancestor.mapM resolveBlock
  let origin ← b.origin.mapM readOrigin
  let policy ← b.settings.mapM fun text => readPolicy (some text)
  return ⟨ancestor.map Tree.id, b.path, b.dirty, origin, policy⟩

/-- The writer that puts files into a store, except for a path it refuses without a look at its
nodes. -/
def storeWriter (refused : Option Path) : Writer (StateM Store) where
  write path f nodes :=
    if refused.any (· == path) then return (.error (.config .refused), [])
    else Store.writer.write path f nodes

/-- The writer that can write nothing. -/
def unreachableWriter : Writer (StateM Store) :=
  .ofText fun _ _ => return .error (.io .missing)

def writerOf : WriterKind → Writer (StateM Store)
  | .store refused => storeWriter refused
  | .unreachable => unreachableWriter

/-- The effect and the answer of an action. -/
def perform : Action → Step Answer
  | .openDocument spec settings hold => do
    let document ← assemble spec
    let policy ← readPolicy settings
    let (t, w) ← ofExcept ((← get).workspace.openDocument document policy)
    install w
    answerNode hold t
  | .construct spec content standing hold => do
    let blueprint ← readBlueprint spec
    let (t, w) ← ofExcept ((← get).workspace.construct blueprint content standing)
    install w
    answerNode hold t
  | .get target hold => do
    answerNode hold (← resolve target)
  | .dump target => do
    let t ← resolve target
    list (t.listed false)
    return .tree (← get).forest (← refresh t)
  | .children target hold => do
    let t ← resolveBlock target
    list [t.id]
    answerNodes hold t.children
  | .ancestor target hold => do
    let t ← resolve target
    match ((← get).forest.lineage t.core).head? with
    | some block => answerNode hold block
    | none => return .noNode
  | .root target hold => do
    let t ← resolveBlock target
    answerNode hold ((← get).forest.root t)
  | .origin target => return .origin (← resolve target).core.origin
  | .policy target => return .policy (← resolveBlock target).core.policy
  | .findAncestors target name hold => do
    let t ← resolve target
    answerNodes hold ((← get).forest.findAncestors t name)
  | .findBlocks target name exclude hold => do
    let t ← resolveBlock target
    list (t.listed exclude)
    answerNodes hold (t.findBlocks name exclude)
  | .findDirectives target name exclude hold => do
    let t ← resolveBlock target
    list (t.listed exclude)
    answerNodes hold (t.findDirectives name exclude)
  | .findComments target text exact hold => do
    let t ← resolveBlock target
    list (t.listed false)
    answerNodes hold (t.findComments text exact)
  | .add target content position hold => do
    let block ← resolveBlock target
    if content.name? != some "" then list [block.id]
    let (t, w) ← ofExcept ((← get).workspace.addChild block content position)
    install w
    answerNode hold t
  | .delete target child => do
    let child ← resolve child
    let block ← resolveBlock target
    list [block.id]
    let block ← refresh block
    let w ← ofExcept ((← get).workspace.deleteChild block child.id)
    install w
    return .left (block.children.length - 1)
  | .setParameters target parameters hold => do
    let t ← resolve target
    if t.statement?.isNone then throw .notDirective
    let w ← ofExcept ((← get).workspace.setParameters t parameters)
    install w
    answerNode hold t
  | .compare a b => do
    let a ← resolve a
    let b ← resolve b
    let (equal, listed) := (← get).forest.compareNodes a b
    list listed
    return .comparison equal (a.id == b.id) (a.core.origin.same b.core.origin)
  | .render targets => do
    let ts ← targets.mapM resolve
    list (ts.map Tree.renderListed).flatten
    return .text ((← get).forest.render ts)
  | .unsaved target => do
    let t ← resolveBlock target
    list (blockIds t.dirtyNodes)
    return .files t.unsavedFiles
  | .save target message => do
    let t ← resolve target
    list (blockIds t.dirtyNodes)
    let (checkpoint, w) := (← get).workspace.save t message
    install w
    return .checkpoint checkpoint
  | .checkpoints target => do
    let t ← resolveBlock target
    return .checkpoints ((← get).workspace.checkpoints t)
  | .markClean target => do
    let t ← resolveBlock target
    list (blockIds (t.reached Core.isUnclean))
    let w := (← get).workspace.markClean t
    install w
    return .dirty (((w.forest.find? t.id).map fun t => t.core.dirty).getD false)
  | .write target writer => do
    let t ← resolveBlock target
    let s ← get
    let ((result, w), store) := (s.workspace.writeUnsaved (writerOf writer) t).run s.store
    set { s with workspace := w, store }
    return .written result store
  | .written path => return .stored ((← get).store.get? path)
  | .drop names => do
    modify fun s => { s with handles := s.handles.filter fun (name, _) => !names.contains name }
    return .handles (textSet ((← get).handles.map Prod.fst))

end Step

/-- The answer to an action, and the session after it. -/
def Session.perform (s : Session) (action : Action) : Answer × Session :=
  let (result, s) := ((Step.perform action).run).run s
  match result with
  | .ok answer => (answer, s.sweep)
  | .error fault => (.failed fault, s.sweep)

end HttpdConf
