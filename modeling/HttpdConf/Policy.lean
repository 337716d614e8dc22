import HttpdConf.Text.Characters

/-!
# Activation policies

Some blocks take effect only when a condition holds at run time: a module is loaded, a parameter
is defined. A policy says which blocks are conditional and which conditions are known to hold. A
conditional block is active only when its condition is known to hold; every other block is
active.

## Main definitions

* `Policy`, `Policy.default`
* `Policy.isConditional`, `Policy.isActive`
* `moduleName`: the common form of the spellings of a module
* `insertText`: a set of texts as an ascending list
-/

namespace HttpdConf

/-- Insert into an ascending list without repetition. -/
def insertText (s : String) : List String → List String
  | [] => [s]
  | t :: ts =>
    match compare s t with
    | .lt => s :: t :: ts
    | .eq => t :: ts
    | .gt => t :: insertText s ts

/-- The ascending list of the given texts without repetition. -/
def textSet (ts : List String) : List String :=
  ts.foldl (fun set t => insertText t set) []

/-- What is known about conditional blocks. -/
structure Policy where
  /-- names of the blocks that depend on a condition -/
  conditionalBlocks : List String
  /-- modules known to be loaded, in ascending order -/
  loadedModules : List String
  /-- parameters known to be defined, in ascending order -/
  defines : List String
  deriving DecidableEq, Repr

/-- A text without the given end. -/
def stripEnd? (tail : String) (cs : List Char) : Option (List Char) :=
  if tail.toList.isSuffixOf cs then some (cs.take (cs.length - tail.length)) else none

/-- A text without the given start. -/
def stripStart? (head : String) (cs : List Char) : Option (List Char) :=
  if head.toList.isPrefixOf cs then some (cs.drop head.length) else none

/-- A module may be named by its file, its identifier or its bare name: `mod_ssl.c`,
`ssl_module` and `ssl` are one module. -/
def moduleName (cs : List Char) : List Char :=
  match stripEnd? ".c" cs with
  | some stem => (stripStart? "mod_" stem).getD stem
  | none => (stripEnd? "_module" cs).getD cs

/-- A text without the double quotes at its ends. -/
def withoutQuotes (cs : List Char) : List Char :=
  ((cs.dropWhile (· == '"')).reverse.dropWhile (· == '"')).reverse

namespace Policy

/-- Nothing is known to be loaded or defined. -/
def default : Policy where
  conditionalBlocks :=
    ["IfModule", "IfDefine", "IfVersion", "IfFile", "IfDirective", "IfSection", "If", "ElseIf",
      "Else"]
  loadedModules := []
  defines := []

instance : Inhabited Policy := ⟨default⟩

/-- Whether blocks of this name depend on a condition. -/
def isConditional (p : Policy) (name : String) : Bool :=
  p.conditionalBlocks.any (Text.sameName · name)

/-- Whether the condition of an `IfModule` or `IfDefine` block is known to hold. -/
def knows (p : Policy) (name : String) (condition : List Char) : Bool :=
  if condition.head? == some '!' then false
  else if Text.sameName name "IfModule" then
    p.loadedModules.any fun m => moduleName m.toList == moduleName condition
  else if Text.sameName name "IfDefine" then p.defines.contains (String.ofList condition)
  else false

/-- Whether a block with the given name and parameters is known to be active. -/
def isActive (p : Policy) (name : String) (parameters : List String) : Bool :=
  if p.isConditional name then
    match parameters with
    | [condition] => p.knows name (withoutQuotes condition.toList)
    | _ => false
  else true

/-- A module becomes known to be loaded. -/
def withModule (p : Policy) (m : String) : Policy :=
  { p with loadedModules := insertText m p.loadedModules }

/-- A parameter becomes known to be defined. -/
def withDefine (p : Policy) (d : String) : Policy :=
  { p with defines := insertText d p.defines }

/-- A block that is not conditional is active. -/
theorem isActive_of_not_isConditional {p : Policy} {name : String} {parameters : List String}
    (h : p.isConditional name = false) : p.isActive name parameters = true := by
  simp [isActive, h]

end Policy

end HttpdConf
