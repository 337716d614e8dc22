import HttpdConf.Command.Run

/-!
# The command line

The outer layer: files of the computer, standard output and the exit code.
-/

namespace HttpdConf

/-- The number of a system error, which is reported with either sign. -/
def errorNumber (code : UInt32) : UInt32 := min code (0 - code)

/-- Why the operating system refused. -/
def FileFault.ofSystem : IO.Error → FileFault
  | .noFileOrDirectory .. => .missing
  | .inappropriateType _ code _ => if errorNumber code == 20 then .notDirectory else .isDirectory
  | .invalidArgument _ code details =>
    match errorNumber code with
    | 36 => .nameTooLong
    | 22 => .nulInName
    | _ => .other details
  | e => .other (toString e)

/-- The files of the computer. -/
def systemFiles : FileAccess IO where
  read path := do
    match ← (IO.FS.readBinFile path.text).toBaseIO with
    | .error e => return .error (.ofSystem e)
    | .ok data => return (Content.bytes data).decode
  write path text := do
    match ← (IO.FS.writeFile path.text text).toBaseIO with
    | .error e => return .error (.ofSystem e)
    | .ok () => return .ok ()

end HttpdConf

def main (arguments : List String) : IO UInt32 := do
  let outcome ← HttpdConf.runArguments HttpdConf.systemFiles arguments
  IO.print outcome.stdout
  IO.eprint outcome.stderr
  return outcome.code.toUInt32
