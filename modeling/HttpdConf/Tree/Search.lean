import HttpdConf.Tree

/-!
# Searches

Searches walk the nodes below a block in document order. A walk that excludes inactive blocks
skips them together with everything inside them.

## Main definitions

* `Tree.descendants`: the nodes below a block
* `Tree.findBlocks`, `Tree.findDirectives`, `Tree.findComments`
* `Tree.listed`: the blocks whose children a walk lists
-/

namespace HttpdConf

mutual
/-- The nodes below a block, in document order. -/
def Tree.descendants (exclude : Bool) : Tree → List Tree
  | .block _ _ children => Forest.walk exclude children
  | .comment _ _ => []
  | .directive _ _ => []

/-- The given nodes and those below them. -/
def Forest.walk (exclude : Bool) : Forest → List Tree
  | [] => []
  | t :: rest =>
    if exclude && !t.isActive then Forest.walk exclude rest
    else t :: (t.descendants exclude ++ Forest.walk exclude rest)
end

/-- Whether a text occurs in another. -/
def occursIn (part : List Char) : List Char → Bool
  | [] => part.isEmpty
  | c :: cs => part.isPrefixOf (c :: cs) || occursIn part cs

namespace Tree

/-- The blocks below with a name. -/
def findBlocks (t : Tree) (name : String) (exclude : Bool) : List Tree :=
  (t.descendants exclude).filter fun u => u.isBlock && Text.sameName u.name name

/-- The directives below with a name. -/
def findDirectives (t : Tree) (name : String) (exclude : Bool) : List Tree :=
  (t.descendants exclude).filter fun u => u.isDirective && Text.sameName u.name name

/-- Whether a comment contains a text, or is equal to it. -/
def isCommentOf (text : String) (exact : Bool) : Tree → Bool
  | comment _ own => if exact then own == text else occursIn text.toList own.toList
  | _ => false

/-- The comments below that contain a text, or are equal to it. -/
def findComments (t : Tree) (text : String) (exact : Bool) : List Tree :=
  (t.descendants false).filter (isCommentOf text exact)

/-- The blocks whose children a walk lists, the first one included. -/
def listed (t : Tree) (exclude : Bool) : List NodeId :=
  blockIds (t :: t.descendants exclude)

end Tree

end HttpdConf
