import HttpdConf.Tree

/-!
# Rendering

Trees become text again. A region whose node is unchanged is copied from the file it was read
from; only changed and added nodes are written anew. What separates a node from the text before
it depends on that text only through whether it is empty and whether its last line is complete.

## Main definitions

* `Core.keeps`: whether a parsed node still has the arguments it was read with
* `Ending`: how the text so far ends
* `separator`: what stands between the text so far and a node
* `Tree.renderAfter`: the text of a node after some text
* `Forest.render`: the text of some nodes
-/

namespace HttpdConf

/-- Four spaces for each level. -/
def indent (depth : Nat) : String := String.ofList (List.replicate (4 * depth) ' ')

/-- How a text ends. -/
inductive Ending where
  /-- there is no text -/
  | nothing
  /-- the last line is complete -/
  | lineEnd
  | midLine
  deriving DecidableEq, Repr

/-- How a text that ended in some way ends after more text. -/
def Ending.after (e : Ending) (text : String) : Ending :=
  match text.toList.getLast? with
  | none => e
  | some c => if c == '\n' then lineEnd else midLine

/-- What is between the text so far and a child: the gap before a parsed node, which starts a new
line if need be, or a new line for an added node. -/
def separator (depth : Nat) (before : Ending) (o : Origin) : String :=
  if o.synthetic then
    if before = .nothing then "" else "\n" ++ indent depth
  else
    let gap := o.fragment.slice o.fragment.leading
    if before = .midLine && !gap.toList.contains '\n' then "\n" ++ gap else gap

/-- Whether a parsed node still has the arguments it was read with. -/
def Core.keeps (core : Core) (parameters : List String) : Bool :=
  !core.origin.synthetic && core.origin.fragment.arguments? == some parameters

/-- Whether the children of a node with this core are rendered one by one, instead of copying the
text around them. -/
def Core.isRebuilt (core : Core) : Bool :=
  core.origin.isDocument || core.origin.synthetic || core.dirty

/-- A comment line. -/
def commentLine (text : String) : String := if text.isEmpty then "#" else "# " ++ text

mutual
/-- The text of a node after some text. -/
def Tree.renderAfter (depth : Nat) (before : Ending) : Tree → String
  | .comment core text =>
    if core.origin.synthetic then commentLine text else core.origin.fragment.text
  | .directive core statement =>
    if core.keeps statement.parameters then core.origin.fragment.text else statement.line
  | .block core statement children =>
    let fragment := core.origin.fragment
    if core.origin.isDocument then
      Forest.renderAfter 0 before children ++ fragment.slice fragment.trailing
    else if !core.isRebuilt then fragment.text
    else
      let head :=
        if core.keeps statement.parameters then fragment.slice fragment.header
        else "<" ++ statement.line ++ ">"
      let tail :=
        if core.origin.synthetic then "\n" ++ indent depth ++ "</" ++ statement.name ++ ">"
        else fragment.slice fragment.trailing ++ fragment.slice fragment.footer
      head ++ Forest.renderAfter (depth + 1) (before.after head) children ++ tail

/-- The text of the children of a block after some text. -/
def Forest.renderAfter (depth : Nat) (before : Ending) : Forest → String
  | [] => ""
  | t :: rest =>
    let gap := separator depth before t.core.origin
    let text := t.renderAfter depth (before.after gap)
    gap ++ text ++ Forest.renderAfter depth ((before.after gap).after text) rest
end

/-- The text of some nodes after some text, each on a line of its own. -/
def Forest.renderAll (f : Forest) (before : Ending) : List Tree → String
  | [] => ""
  | t :: rest =>
    let gap := if before = .midLine then "\n" else ""
    let text := t.renderAfter (f.depth t) (before.after gap)
    gap ++ text ++ Forest.renderAll f ((before.after gap).after text) rest

/-- The text of some nodes, each on a line of its own. -/
def Forest.render (f : Forest) (ts : List Tree) : String := f.renderAll .nothing ts

/-- The blocks whose children are listed to render a node. -/
def Tree.renderListed (t : Tree) : List NodeId := blockIds (t.reached Core.isRebuilt)

end HttpdConf
