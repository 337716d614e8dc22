import HttpdConf.Command.Arguments
import HttpdConf.Diagnostic
import HttpdConf.Directory
import HttpdConf.Fragment.Dump
import HttpdConf.Fragment.Reader
import HttpdConf.Settings.Json
import HttpdConf.Settings.Toml
import HttpdConf.Workspace

/-!
# Running commands

Commands read and write files only through a `FileAccess`, so that they run in the same way on the
files of a computer and on a directory that is a value.

## Main definitions

* `FileAccess`, `FileAccess.ofDirectory`
* `Failure`: an error with its causes
* `Outcome`: what a command prints and its exit code
* `Policy.load`: the policy of a file
* `Invocation.run`, `runArguments`
-/

namespace HttpdConf

/-- How files are read and written. -/
structure FileAccess (m : Type → Type) where
  read : Path → m (Except FileFault String)
  write : Path → String → m (Except FileFault Unit)

/-- The files of a directory that is a value. -/
def FileAccess.ofDirectory : FileAccess (StateM Directory) where
  read path := return (← get).read path
  write path text := do
    match (← get).write path text with
    | .error fault => return .error fault
    | .ok d =>
      set d
      return .ok ()

/-- An error and its causes, each with a text that may span several lines. -/
structure Failure where
  text : String
  causes : List String

namespace Failure

/-- The lines of a text. -/
def linesOf : List Char → List (List Char)
  | [] => [[]]
  | c :: cs =>
    if c == '\n' then [] :: linesOf cs
    else
      match linesOf cs with
      | [] => [[c]]
      | line :: rest => (c :: line) :: rest

/-- A cause with its first line after `first` and all others after `other`. -/
def showCause (first other cause : String) : String :=
  match linesOf cause.toList with
  | [] => first
  | line :: rest =>
    rest.foldl (fun out l => out ++ "\n" ++ other ++ String.ofList l) (first ++ String.ofList line)

/-- The causes, numbered if there are several. -/
def showCauses : List String → List String
  | [] => []
  | [cause] => [showCause "    " "    " cause]
  | causes => causes.zipIdx.map fun (cause, i) =>
    showCause (String.ofList (List.replicate (5 - (toString i).length) ' ') ++ toString i ++ ": ")
      "       " cause

/-- What is printed when a command fails. -/
def report (failure : Failure) : String :=
  "Error: " ++ failure.text ++
    (if failure.causes.isEmpty then ""
     else "\n\nCaused by:" ++ String.join ((showCauses failure.causes).map ("\n" ++ ·))) ++ "\n"

/-- An error of trees, policies or files. -/
def ofError (e : Error) : Failure :=
  ⟨e.message, match e with
    | .io fault => [fault.message]
    | _ => []⟩

/-- A file that could not be read. -/
def ofFile (path : Path) (fault : FileFault) : Failure :=
  ⟨"IO error: " ++ path.text ++ ": " ++ fault.message, []⟩

/-- A file that is not configuration text. -/
def ofSyntaxError (e : SyntaxError) : Failure :=
  ⟨"Parse error: " ++ e.message, e.message :: match e with
    | .stray character => [character.message]
    | _ => []⟩

end Failure

/-- What a command prints, and its exit code. -/
structure Outcome where
  code : Nat
  stdout : String
  stderr : String

namespace Outcome

def ok (stdout : String) : Outcome := ⟨0, stdout, ""⟩

def failed (failure : Failure) : Outcome := ⟨1, "", failure.report⟩

end Outcome

/-- Why the document of a file could not be had. -/
inductive LoadFault where
  | file (fault : FileFault)
  | text (source : String) (e : SyntaxError)

def LoadFault.failure (path : Path) : LoadFault → Failure
  | file fault => .ofFile path fault
  | text _ e => .ofSyntaxError e

/-- One line about a node: its file, the named blocks around it and the node itself. -/
def Forest.describe (f : Forest) (t : Tree) : String :=
  let chain := ((f.lineage t.core).map Tree.name).filter (· != "") |>.reverse
  let statement := match t with
    | .comment _ text => "# " ++ text
    | .directive _ s => s.line ++ (if f.enabled t then "" else "  (inactive)")
    | .block _ s _ =>
      "<" ++ s.line ++ ">" ++ (if f.enabled t && t.isActive then "" else "  (inactive)")
  t.core.path.text ++ ": " ++ String.join (chain.map (· ++ " > ")) ++ statement

/-- Set the parameters of every directive of a name that is in force in a block, or add one to the
block if there is none. -/
def Workspace.setDirective (w : Workspace) (scope : Tree) (name : String)
    (parameters : List String) : Except Error Workspace :=
  match scope.findDirectives name true with
  | [] => (w.addChild scope (.directive name parameters) none).map Prod.snd
  | existing => existing.foldlM (fun w d =>
      if d.parameters == parameters then .ok w else w.setParameters d parameters) w

/-- The block that `set` works in: the first active one of a name, or the whole file. -/
def Tree.scope? (root : Tree) : Option String → Option Tree
  | none => some root
  | some name => (root.findBlocks name true).head?

/-- The writer that writes files through an access. -/
def FileAccess.writer {m : Type → Type} [Monad m] (access : FileAccess m) : Writer m :=
  .ofText fun path text => return (← access.write path text).mapError .io

/-- The policy of the file at `path` with the given content. A file without extension holds
TOML. -/
def Policy.load (path : Path) (content : Except FileFault String) : Except Error Policy :=
  match content with
  | .error fault => .error (.config (.unreadable fault))
  | .ok text =>
    match path.extension?.getD "" with
    | "json" => ofJson text
    | "toml" | "" => ofToml text
    | other => .error (.config (.unknownFormat other))

section

variable {m : Type → Type} [Monad m] (access : FileAccess m)

/-- The document of a file. -/
def loadDocument (file : Path) : m (Except LoadFault Fragment) := do
  match ← access.read file with
  | .error fault => return .error (.file fault)
  | .ok text =>
    match Fragment.read ⟨file, text⟩ with
    | .error e => return .error (.text text e)
    | .ok document => return .ok document

/-- The root block of a file in a workspace of its own. -/
def loadTree (file : Path) (policy : Policy) : m (Except Failure (Tree × Workspace)) := do
  match ← loadDocument access file with
  | .error fault => return .error (fault.failure file)
  | .ok document => return (Workspace.empty.openDocument document policy).mapError Failure.ofError

/-- The policy of an invocation: that of its file, or else the default one, with the modules and
parameters given along. -/
def loadPolicy (i : Invocation) : m (Except Failure Policy) := do
  let base : Except Failure Policy ← match i.policy with
    | none => pure (.ok Policy.default)
    | some path => do
      match Policy.load path (← access.read path) with
      | .error e => pure (.error ⟨"failed to load policy " ++ path.text, [e.message]⟩)
      | .ok p => pure (.ok p)
  return base.map fun p =>
    i.defines.foldl Policy.withDefine (i.modules.foldl Policy.withModule p)

/-- List the nodes that a search finds. -/
def runSearch (file : Path) (policy : Policy) (search : Tree → List Tree) : m Outcome := do
  match ← loadTree access file policy with
  | .error failure => return .failed failure
  | .ok (root, w) =>
    return .ok (String.join ((search root).map fun t => w.forest.describe t ++ "\n"))

/-- Report errors in a file. -/
def runCheck (file : Path) : m Outcome := do
  match ← loadDocument access file with
  | .ok document =>
    return .ok (file.text ++ ": ok (" ++ toString document.children.length ++ " top-level nodes)\n")
  | .error (.text source e) => return ⟨1, "", (e.report? file source).getD ""⟩
  | .error (.file fault) => return ⟨1, "", (Failure.ofFile file fault).text ++ "\n"⟩

/-- Write the files with pending changes, or only show what would be written. -/
def runWrite (root : Tree) (w : Workspace) (dryRun : Bool) : m Outcome := do
  if dryRun then
    let ((result, _), store) := (w.writeUnsaved Store.writer root).run Store.empty
    match result with
    | .error e => return .failed (.ofError e)
    | .ok _ =>
      return .ok (String.join (store.files.map fun (path, text) =>
        "==> " ++ path.text ++ " <==\n" ++ text))
  else
    match ← w.writeUnsaved access.writer root with
    | (.error e, _) => return .failed (.ofError e)
    | (.ok files, _) =>
      return .ok (String.join (files.map fun path => "Wrote " ++ path.text ++ "\n"))

/-- Set the parameters of directives. -/
def runSet (policy : Policy) (file : Path) (name : String) (parameters : List String)
    (block : Option String) (message : String) (dryRun : Bool) : m Outcome := do
  match ← loadTree access file policy with
  | .error failure => return .failed failure
  | .ok (root, w) =>
    match root.scope? block with
    | none =>
      return .failed ⟨"no active <" ++ block.getD "" ++ "> block in " ++ file.text, []⟩
    | some scope =>
      match w.setDirective scope name parameters with
      | .error e => return .failed (.ofError e)
      | .ok w =>
        let root := (w.forest.find? root.id).getD root
        match w.save root message with
        | (none, _) => return .ok (file.text ++ ": already up to date\n")
        | (some _, w) => runWrite access root w dryRun

/-- Print the fragments of a file. -/
def runDump (file : Path) : m Outcome := do
  match ← loadDocument access file with
  | .error fault => return .failed (fault.failure file)
  | .ok document => return .ok (document.dump ++ "\n")

/-- Carry out an invocation. -/
def Invocation.run (i : Invocation) : m Outcome := do
  match ← loadPolicy access i with
  | .error failure => return .failed failure
  | .ok policy =>
    match i.command with
    | .check file => runCheck access file
    | .blocks file name all => runSearch access file policy (·.findBlocks name !all)
    | .directives file name all => runSearch access file policy (·.findDirectives name !all)
    | .comments file text exact => runSearch access file policy (·.findComments text exact)
    | .set file name parameters block message dryRun =>
      runSet access policy file name parameters block message dryRun
    | .dump file => runDump access file

/-- The program's name and version. -/
def versionLine : String := programName ++ " 0.1.6\n"

/-- A reminder of the commands and options. -/
def usageText : String :=
  "Usage: " ++ programName ++ " [--verbose] [--policy PATH] [--module NAME]... " ++
    "[--define NAME]... COMMAND\n\n" ++
    "Commands:\n" ++
    "  check FILE\n" ++
    "  blocks FILE NAME [--all]\n" ++
    "  directives FILE NAME [--all]\n" ++
    "  comments FILE TEXT [--exact]\n" ++
    "  set FILE NAME [PARAMETER]... [--block NAME] [--message TEXT] [--dry-run]\n" ++
    "  dump FILE\n"

/-- Carry out a command line. -/
def runArguments (arguments : List String) : m Outcome :=
  match Invocation.ofArguments arguments with
  | .ok i => i.run access
  | .error .version => return .ok versionLine
  | .error .help => return .ok usageText
  | .error .usage => return ⟨2, "", usageText⟩

end

end HttpdConf
