import HttpdConf.Path

/-!
# Commands and their arguments

What the command line can be asked to do, and how it is asked. Arguments are read from left to
right. General options may stand before and after the name of the command; when one is given in both
places, those after it count. Options and operands may be mixed; after `--` only operands follow.

## Main definitions

* `Command`: what to do with a configuration file
* `Invocation`: a command with the policy it is carried out under
* `Level`: the options and operands that are known at some point of the command line
* `Level.readAll`: the arguments of a level
* `Invocation.ofArguments`: the invocation that a command line asks for
-/

namespace HttpdConf

/-- What the program calls itself. -/
def programName : String := "apacheconf"

inductive Command where
  /-- report errors in a file -/
  | check (file : Path)
  /-- list the blocks of a name, all or only the active ones -/
  | blocks (file : Path) (name : String) (all : Bool)
  /-- list the directives of a name, all or only those in force -/
  | directives (file : Path) (name : String) (all : Bool)
  /-- list the comments that contain a text, or are equal to it -/
  | comments (file : Path) (text : String) (exact : Bool)
  /-- set the parameters of the directives of a name, or add one -/
  | set (file : Path) (name : String) (parameters : List String) (block : Option String)
      (message : String) (dryRun : Bool)
  /-- print the fragments of a file -/
  | dump (file : Path)

/-- A command with the policy file, modules and parameters given along with it. -/
structure Invocation where
  verbose : Bool
  policy : Option Path
  modules : List String
  defines : List String
  command : Command

/-! ## Options -/

/-- Options without value. -/
inductive Switch where
  | verbose | all | exact | dryRun | version | help
  deriving DecidableEq

/-- Options with a value. -/
inductive Setter where
  | policy | module | define | block | message
  deriving DecidableEq

namespace Switch

def ofLong? : String → Option Switch
  | "verbose" => some verbose
  | "all" => some all
  | "exact" => some exact
  | "dry-run" => some dryRun
  | "version" => some version
  | "help" => some help
  | _ => none

def ofShort? : Char → Option Switch
  | 'v' => some verbose
  | 'V' => some version
  | 'h' => some help
  | _ => none

end Switch

namespace Setter

def ofLong? : String → Option Setter
  | "policy" => some policy
  | "module" => some module
  | "define" => some define
  | "block" => some block
  | "message" => some message
  | _ => none

/-- Options that may be given several times. -/
def isRepeatable : Setter → Bool
  | module | define => true
  | _ => false

end Setter

/-- The options and the number of operands that are known at some point of the command line. -/
structure Level where
  switches : List Switch
  setters : List Setter
  /-- none when there is no limit -/
  operands : Option Nat

/-- Why reading the arguments ended before a command was found. -/
inductive Stop where
  | version
  | help
  | usage

/-- The arguments read so far, in order. -/
structure Arguments where
  switches : List Switch
  values : List (Setter × String)
  operands : List String

namespace Arguments

def none : Arguments := ⟨[], [], []⟩

/-- The values of an option. -/
def valuesOf (a : Arguments) (o : Setter) : List String :=
  a.values.filterMap fun (p, value) => if p = o then some value else .none

end Arguments

namespace Level

/-- An option without value; it may be given once. -/
def addSwitch (level : Level) (a : Arguments) (o : Option Switch) : Except Stop Arguments :=
  match o with
  | none => .error .usage
  | some o =>
    if !level.switches.contains o || a.switches.contains o then .error .usage
    else if o = .version then .error .version
    else if o = .help then .error .help
    else .ok { a with switches := a.switches ++ [o] }

/-- The options of a group of letters. -/
def addShort (level : Level) : Arguments → List Char → Except Stop Arguments
  | a, [] => .ok a
  | a, c :: cs => do addShort level (← level.addSwitch a (Switch.ofShort? c)) cs

/-- An option with its value; a path may not be empty. -/
def addValue (level : Level) (a : Arguments) (o : Setter) (value : String) :
    Except Stop Arguments :=
  if !level.setters.contains o then .error .usage
  else if !o.isRepeatable && !(a.valuesOf o).isEmpty then .error .usage
  else if o = .policy && value.isEmpty then .error .usage
  else .ok { a with values := a.values ++ [(o, value)] }

/-- An operand; the first one is a path and may not be empty. -/
def addOperand (level : Level) (a : Arguments) (operand : String) : Except Stop Arguments :=
  if level.operands.any fun limit => limit ≤ a.operands.length then .error .usage
  else if a.operands.isEmpty && operand.isEmpty then .error .usage
  else .ok { a with operands := a.operands ++ [operand] }

/-- Whether an argument can be taken as a value or operand before `--`. -/
def isPlain (argument : String) : Bool :=
  match argument.toList with
  | '-' :: _ :: _ => false
  | _ => true

/-- An option given by its name, with what follows an `=` sign. -/
def addLong (level : Level) (a : Arguments) (name : List Char) (value : Option String) :
    Except Stop Arguments :=
  match Setter.ofLong? (String.ofList name), value with
  | some o, some value => level.addValue a o value
  | some _, none => .error .usage
  | none, some _ => .error .usage
  | none, none => level.addSwitch a (Switch.ofLong? (String.ofList name))

/-- The name of a long option, and its value if it has one. -/
def splitLong (cs : List Char) : List Char × Option String :=
  match cs.span (· != '=') with
  | (name, _ :: value) => (name, some (String.ofList value))
  | (name, []) => (name, none)

/-- Read arguments. With `stopAtOperand`, the first operand ends the level; it is answered together
with the arguments after it. -/
def read (level : Level) (stopAtOperand : Bool) :
    Arguments → List String → Except Stop (Arguments × List String)
  | a, [] => .ok (a, [])
  | a, argument :: rest =>
    match argument.toList with
    | ['-', '-'] =>
      if stopAtOperand then .error .usage
      else do return (← rest.foldlM level.addOperand a, [])
    | '-' :: '-' :: cs =>
      match splitLong cs, rest with
      | (name, some value), rest => do
        read level stopAtOperand (← level.addLong a name (some value)) rest
      | (name, none), [] => do
        read level stopAtOperand (← level.addLong a name none) []
      | (name, none), next :: rest =>
        if (Setter.ofLong? (String.ofList name)).isSome then
          if isPlain next then do
            read level stopAtOperand (← level.addLong a name (some next)) rest
          else .error .usage
        else do read level stopAtOperand (← level.addLong a name none) (next :: rest)
    | '-' :: c :: cs => do
      read level stopAtOperand (← level.addShort a (c :: cs)) rest
    | _ =>
      if stopAtOperand then .ok (a, argument :: rest)
      else do read level stopAtOperand (← level.addOperand a argument) rest

end Level

/-- Options known everywhere. -/
def generalSetters : List Setter := [.policy, .module, .define]

/-- What is known before the name of the command. -/
def topLevel : Level := ⟨[.verbose, .version, .help], generalSetters, none⟩

/-- What is known after the name of a command. -/
def levelOf? : String → Option Level
  | "check" | "dump" => some ⟨[.verbose, .help], generalSetters, some 1⟩
  | "blocks" | "directives" => some ⟨[.verbose, .help, .all], generalSetters, some 2⟩
  | "comments" => some ⟨[.verbose, .help, .exact], generalSetters, some 2⟩
  | "set" =>
    some ⟨[.verbose, .help, .dryRun], generalSetters ++ [.block, .message], none⟩
  | _ => none

/-- The checkpoint message when none is given. -/
def defaultMessage : String := programName ++ " set"

/-- The command of a name with its arguments. -/
def Command.ofArguments? (name : String) (a : Arguments) : Option Command :=
  match name, a.operands with
  | "check", [file] => some (.check ⟨file⟩)
  | "dump", [file] => some (.dump ⟨file⟩)
  | "blocks", [file, wanted] => some (.blocks ⟨file⟩ wanted (a.switches.contains .all))
  | "directives", [file, wanted] => some (.directives ⟨file⟩ wanted (a.switches.contains .all))
  | "comments", [file, text] => some (.comments ⟨file⟩ text (a.switches.contains .exact))
  | "set", file :: wanted :: parameters =>
    some (.set ⟨file⟩ wanted parameters (a.valuesOf .block).head?
      ((a.valuesOf .message).head?.getD defaultMessage) (a.switches.contains .dryRun))
  | _, _ => none

/-- The values of a general option: those after the name of the command, or else those before it. -/
def generalValues (before after : Arguments) (o : Setter) : List String :=
  if (after.valuesOf o).isEmpty then before.valuesOf o else after.valuesOf o

/-- Help is given for the program, for one command and for itself. -/
def isHelpTopic : List String → Bool
  | [] | ["help"] => true
  | [name] => (levelOf? name).isSome
  | _ => false

/-- The invocation that a command line asks for. -/
def Invocation.ofArguments (arguments : List String) : Except Stop Invocation := do
  let (before, rest) ← topLevel.read true Arguments.none arguments
  match rest with
  | [] => .error .usage
  | "help" :: topic => .error (if isHelpTopic topic then .help else .usage)
  | name :: rest =>
    match levelOf? name with
    | none => .error .usage
    | some level =>
      let (after, _) ← level.read false Arguments.none rest
      match Command.ofArguments? name after with
      | none => .error .usage
      | some command =>
        return {
          verbose := before.switches.contains .verbose || after.switches.contains .verbose
          policy := (generalValues before after .policy).head?.map (⟨·⟩)
          modules := generalValues before after .module
          defines := generalValues before after .define
          command }

end HttpdConf
