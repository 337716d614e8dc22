import HttpdConf.Fragment.Reader

/-!
# Documents with included files

A document may be put together from several files: the statements of an included file are
inserted among the children of a fragment of the including one. Only the lists of children
change; every fragment keeps its file and spans.

## Main definitions

* `Splice`: where an included file goes
* `Fragment.splice?`: insert fragments at a place
* `DocumentSpec`, `DocumentSpec.assemble`: a file with its included files
-/

namespace HttpdConf

/-- Where an included file goes: the fragment it is inserted into, by child indices from the root,
the index among its children, and whether the whole document is inserted instead of its
statements. -/
structure Splice where
  into : List Nat
  index : Nat
  whole : Bool

namespace Fragment

/-- Replace the children. -/
def withChildren (f : Fragment) (children : List Fragment) : Fragment := { f with children }

/-- Insert fragments into the children at a place, if there is such a place. -/
def splice? (index : Nat) (new : List Fragment) : List Nat → Fragment → Option Fragment
  | [], f =>
    if index ≤ f.children.length then
      some (f.withChildren (f.children.take index ++ new ++ f.children.drop index))
    else none
  | i :: into, f =>
    match f.children[i]? with
    | none => none
    | some child =>
      (splice? index new into child).map fun child => f.withChildren (f.children.set i child)

end Fragment

/-- A file with the files included into it. -/
inductive DocumentSpec where
  | file (source : SourceFile) (includes : List (Splice × DocumentSpec))

instance : Inhabited DocumentSpec := ⟨.file ⟨⟨""⟩, ""⟩ []⟩

/-- Why a document could not be put together. -/
inductive DocumentFault where
  | unreadable (e : SyntaxError)
  /-- there is no such place for an included file -/
  | badSplice

mutual
/-- The document of a file with its included files. -/
def DocumentSpec.assemble : DocumentSpec → Except DocumentFault Fragment
  | .file source includes =>
    match Fragment.read source with
    | .error e => .error (.unreadable e)
    | .ok root => DocumentSpec.includeAll root includes

/-- A document with further files included, one after the other. -/
def DocumentSpec.includeAll (root : Fragment) :
    List (Splice × DocumentSpec) → Except DocumentFault Fragment
  | [] => .ok root
  | (place, spec) :: rest =>
    match spec.assemble with
    | .error e => .error e
    | .ok document =>
      let new := if place.whole then [document] else document.children
      match root.splice? place.index new place.into with
      | none => .error .badSplice
      | some root => DocumentSpec.includeAll root rest
end

end HttpdConf
