/-!
# Paths

A path keeps the spelling it was given, but is compared by its components: repeated slashes, a
trailing slash and `.` components other than a leading one do not count.

## Main definitions

* `Path`, `Path.components`, `Path.extension?`
* `Path.insert`: a set of paths as an ascending list that keeps the spelling inserted first
* `Component`: one step of a path, ordered root, `.`, `..`, names
-/

namespace HttpdConf

/-- One step of a path. The order of the constructors is the order of components. -/
inductive Component where
  /-- the leading slash -/
  | root
  /-- a leading `.` -/
  | here
  /-- `..` -/
  | up
  | name (text : String)
  deriving DecidableEq, Repr

namespace Component

/-- Place of the component's kind in the order. -/
def rank : Component → Nat
  | root => 0
  | here => 1
  | up => 2
  | name _ => 3

/-- Components are ordered by kind, names among themselves by code points. -/
def compare (a b : Component) : Ordering :=
  match a, b with
  | name s, name t => Ord.compare s t
  | _, _ => Ord.compare a.rank b.rank

end Component

/-- A file path as it was spelled. -/
structure Path where
  text : String
  deriving Repr

namespace Path

/-- The texts between the slashes. -/
def segments : List Char → List (List Char)
  | [] => [[]]
  | c :: cs =>
    if c == '/' then [] :: segments cs
    else
      match segments cs with
      | [] => [[c]]
      | s :: rest => (c :: s) :: rest

/-- A segment that is not first: empty ones and `.` do not count. -/
def componentOf? (segment : List Char) : Option Component :=
  match segment with
  | [] => none
  | ['.'] => none
  | ['.', '.'] => some .up
  | s => some (.name (String.ofList s))

/-- The steps of the path. -/
def components (p : Path) : List Component :=
  match p.text.toList with
  | '/' :: cs => .root :: (segments cs).filterMap componentOf?
  | cs =>
    match segments cs with
    | ['.'] :: rest => .here :: rest.filterMap componentOf?
    | segs => segs.filterMap componentOf?

instance : BEq Path where
  beq p q := p.components == q.components

/-- Component by component; a path comes before its continuations. -/
def compareComponents : List Component → List Component → Ordering
  | [], [] => .eq
  | [], _ :: _ => .lt
  | _ :: _, [] => .gt
  | a :: as, b :: bs => (a.compare b).then (compareComponents as bs)

/-- The order in which files are written. -/
def compare (p q : Path) : Ordering :=
  compareComponents p.components q.components

/-- Insert into an ascending list without repetition; an equal path that is there already keeps
its spelling. -/
def insert (p : Path) : List Path → List Path
  | [] => [p]
  | q :: qs =>
    match p.compare q with
    | .lt => p :: q :: qs
    | .eq => q :: qs
    | .gt => q :: insert p qs

/-- The name of the file the path leads to, if it ends in one. -/
def fileName? (p : Path) : Option String :=
  match p.components.getLast? with
  | some (.name s) => some s
  | _ => none

/-- What follows the last dot of a file name; a dot that only begins the name does not count. -/
def extensionOf? (fileName : List Char) : Option (List Char) :=
  let (suffix, rest) := fileName.reverse.span (· != '.')
  match rest with
  | [] => none
  | [_] => none
  | _ :: _ => some suffix.reverse

/-- The extension of the file name. -/
def extension? (p : Path) : Option String :=
  p.fileName?.bind fun s => (extensionOf? s.toList).map String.ofList

end Path

end HttpdConf
