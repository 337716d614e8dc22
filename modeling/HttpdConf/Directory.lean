import HttpdConf.Error
import HttpdConf.Path

/-!
# Directories

A directory as a value: what stands at each place in it and around it. Paths are followed from it
step by step, as an operating system does: every step but the last has to lead to a directory,
also a step that is taken back by `..`.

A place is the list of the names that lead to it, innermost first. The directory itself is `[]`,
the ones around it are `[".."]`, `["..", ".."]` and so on, and `["/"]` is where absolute paths
start. These always are directories; of what is in the outer ones only that is known which was
added.

## Main definitions

* `Content`, `Entry`, `Directory`
* `Directory.empty`, `Directory.ofFiles`: the directory that holds the given files
* `Directory.follow`: where a path leads
* `Directory.read`, `Directory.write`: the text of the file at a path
-/

namespace HttpdConf

/-- What a file holds. -/
inductive Content where
  | text (s : String)
  | bytes (data : ByteArray)

/-- The text of a file, if it has one. -/
def Content.decode : Content → Except FileFault String
  | text s => .ok s
  | bytes data =>
    match String.fromUTF8? data with
    | some s => .ok s
    | none => .error .notText

inductive Entry where
  | file (content : Content)
  | folder

/-- A directory, given by what stands at the places in it. -/
structure Directory where
  entries : List (List String × Entry)

namespace Directory

/-- The longest name of a file, in bytes. -/
def maxNameSize : Nat := 255

/-- The longest path, in bytes. -/
def maxPathSize : Nat := 4095

/-- The place that `..` leads to; from `/` it leads nowhere else. -/
def outer : List String → List String
  | [] => [".."]
  | ".." :: around => ".." :: ".." :: around
  | ["/"] => ["/"]
  | _ :: around => around

/-- The place where a path starts. -/
def start (path : Path) : List String :=
  if path.text.startsWith "/" then ["/"] else []

/-- The names on a path, empty ones included. -/
def names (path : Path) : List String :=
  (Path.segments path.text.toList).map String.ofList

/-- What stands at a place. -/
def get? (d : Directory) (place : List String) : Option Entry :=
  if place.all fun name => name == ".." || name == "/" then some .folder
  else d.entries.lookup place

/-! ## Making a directory -/

/-- Put an entry at a place, instead of what stands there. -/
def put (d : Directory) (place : List String) (entry : Entry) : Directory :=
  ⟨(place, entry) :: d.entries.filter fun (other, _) => other != place⟩

/-- Follow names from a place and make the directories that are missing on the way. -/
def enter : Directory → List String → List String → Directory × List String
  | d, here, [] => (d, here)
  | d, here, "" :: rest => enter d here rest
  | d, here, "." :: rest => enter d here rest
  | d, here, ".." :: rest => enter d (outer here) rest
  | d, here, name :: rest =>
    let d := if (d.get? (name :: here)).isSome then d else d.put (name :: here) .folder
    enter d (name :: here) rest

/-- Add an entry under a path, together with the directories on the way. A file replaces the file
that an earlier path led to. -/
def add (d : Directory) (path : Path) : Entry → Directory
  | .folder => (d.enter (start path) (names path)).1
  | .file content =>
    let (d, here) := d.enter (start path) (names path).dropLast
    d.put ((names path).getLastD "" :: here) (.file content)

/-- An empty directory. Outside of it nothing is known but the null device, which reads as an
empty file. -/
def empty : Directory :=
  add ⟨[]⟩ ⟨"/dev/null"⟩ (.file (.text ""))

/-- The directory that holds the given entries, added in this order. -/
def ofFiles (files : List (Path × Entry)) : Directory :=
  files.foldl (fun d (path, entry) => d.add path entry) empty

/-! ## Following paths -/

/-- Follow names from a place. -/
def followFrom (d : Directory) :
    List String → List String → Except FileFault (List String × Content)
  | _, [] => .error .isDirectory
  | here, "" :: rest => followFrom d here rest
  | here, "." :: rest => followFrom d here rest
  | here, ".." :: rest => followFrom d (outer here) rest
  | here, name :: rest =>
    if maxNameSize < name.utf8ByteSize then .error .nameTooLong
    else
      match d.get? (name :: here) with
      | none => .error .missing
      | some .folder => followFrom d (name :: here) rest
      | some (.file content) =>
        if rest.isEmpty then .ok (name :: here, content) else .error .notDirectory

/-- The file that a path leads to: its place and its content. -/
def follow (d : Directory) (path : Path) : Except FileFault (List String × Content) :=
  if path.text.toList.contains '\x00' then .error .nulInName
  else if maxPathSize < path.text.utf8ByteSize then .error .nameTooLong
  else if path.text.isEmpty then .error .missing
  else d.followFrom (start path) (names path)

/-- The text of the file at a path. -/
def read (d : Directory) (path : Path) : Except FileFault String := do
  (← d.follow path).2.decode

/-- Replace the text of the file at a path. -/
def write (d : Directory) (path : Path) (text : String) : Except FileFault Directory := do
  let (place, _) ← d.follow path
  return d.put place (.file (.text text))

end Directory

end HttpdConf
