import HttpdConf.Path
import HttpdConf.Text.Slice
import HttpdConf.Token

/-!
# Fragments

A fragment is an immutable region of a configuration file: the whole file, a comment, a directive
or a block. It keeps the span of its own text and of the gaps around it, so that a region that
nobody changes can be written back byte for byte.

## Main definitions

* `SourceFile`, `SourceFile.slice`: a file as it was read, and the text under a span
* `FragmentKind`: what a fragment stands for
* `Fragment`: a region with its spans and the fragments inside it
* `Fragment.descendants`: the fragments inside, in document order
* `Fragment.same`: agreement of content, paths compared by their components
-/

namespace HttpdConf

/-- One configuration file as it was read. -/
structure SourceFile where
  path : Path
  text : String
  deriving Repr

namespace SourceFile

/-- The number of bytes of the text. -/
def length (file : SourceFile) : Nat := file.text.utf8ByteSize

/-- The text under a span; empty when the span is out of bounds, reversed or splits a
character. -/
def slice (file : SourceFile) (span : Span) : String :=
  Text.slice file.text span.start span.stop

/-- Files agree when their paths name the same place and their texts are equal. -/
def same (a b : SourceFile) : Bool :=
  a.path == b.path && a.text == b.text

end SourceFile

inductive FragmentKind where
  /-- a whole file -/
  | document
  /-- `# text` -/
  | comment (text : String)
  /-- `Name argument argument` -/
  | directive (name : String) (arguments : List String)
  /-- `<Name argument> ... </Name>` -/
  | block (name : String) (arguments : List String)
  deriving DecidableEq, Repr

structure Fragment where
  source : SourceFile
  kind : FragmentKind
  /-- the fragment's own text, close tag included -/
  span : Span
  /-- the gap between what precedes the fragment and its first byte -/
  leading : Span
  /-- the open tag of a block, all of a directive or comment -/
  header : Span
  /-- the gap between the last child and the footer -/
  trailing : Span
  /-- the close tag of a block -/
  footer : Span
  children : List Fragment

namespace Fragment

/-- The text under a span of the fragment's file. -/
def slice (f : Fragment) (span : Span) : String := f.source.slice span

/-- The fragment's own text. -/
def text (f : Fragment) : String := f.slice f.span

/-- The name of a directive or block. -/
def name? (f : Fragment) : Option String :=
  match f.kind with
  | .directive name _ | .block name _ => some name
  | _ => none

/-- The arguments of a directive or block. -/
def arguments? (f : Fragment) : Option (List String) :=
  match f.kind with
  | .directive _ arguments | .block _ arguments => some arguments
  | _ => none

mutual
/-- The fragments strictly inside, each before its own children. -/
def descendants : Fragment → List Fragment
  | ⟨_, _, _, _, _, _, _, children⟩ => descendantsOfAll children

/-- The given fragments and all inside them, in document order. -/
def descendantsOfAll : List Fragment → List Fragment
  | [] => []
  | f :: rest => f :: (descendants f ++ descendantsOfAll rest)
end

mutual
/-- Whether two fragments have the same content. -/
def same : Fragment → Fragment → Bool
  | ⟨source, kind, span, leading, header, trailing, footer, children⟩, b =>
    source.same b.source && kind == b.kind && span == b.span && leading == b.leading &&
      header == b.header && trailing == b.trailing && footer == b.footer &&
      sameAll children b.children

/-- Whether two lists of fragments agree place by place. -/
def sameAll : List Fragment → List Fragment → Bool
  | [], [] => true
  | a :: as, b :: bs => same a b && sameAll as bs
  | _, _ => false
end

end Fragment

end HttpdConf
