import HttpdConf.Token

/-!
# Errors in configuration text

Why a text is not a configuration file, where that shows, and how it is put into words.

## Main definitions

* `Expectation`: what could have stood at the offending place
* `SyntaxError`, with its `position`, `message` and `label`
-/

namespace HttpdConf

/-- What the reader could have gone on with. -/
inductive Expectation where
  /-- the start of a directive, comment or block -/
  | statement
  /-- more of a directive, or its end -/
  | argument
  /-- the `>` of an open tag -/
  | tagEnd (name : String)
  deriving DecidableEq, Repr

def Expectation.display : Expectation → String
  | statement => "directive, comment or block"
  | argument => "argument or end of line"
  | tagEnd name => "'>' to end <" ++ name

inductive SyntaxError where
  /-- no token starts here -/
  | stray (character : StrayCharacter)
  /-- a token that cannot stand here -/
  | unexpectedToken (position : Nat) (expected : Expectation) (found : Token)
  /-- the text ends inside an open tag -/
  | unexpectedEnd (position : Nat) (expected : Expectation)
  /-- the text ends inside a block -/
  | unclosedBlock (position : Nat) (name : String)
  /-- a close tag that does not fit the innermost open block -/
  | mismatchedClose (position : Nat) (expected : String) (found : String)
  deriving DecidableEq, Repr

namespace SyntaxError

/-- The byte offset the error points at. -/
def position : SyntaxError → Nat
  | stray character => character.position
  | unexpectedToken position _ _ => position
  | unexpectedEnd position _ => position
  | unclosedBlock position _ => position
  | mismatchedClose position _ _ => position

/-- The error in one line. -/
def message : SyntaxError → String
  | stray character => "Lexer error: " ++ character.message
  | unexpectedToken position expected found =>
    "Unexpected token at position " ++ toString position ++ ": expected " ++ expected.display ++
      ", found " ++ found.display
  | unexpectedEnd _ expected => "Unexpected end of input, expected " ++ expected.display
  | unclosedBlock position name =>
    "Unclosed block <" ++ name ++ "> opened at position " ++ toString position
  | mismatchedClose position expected found =>
    "Mismatched close tag at position " ++ toString position ++ ": expected </" ++ expected ++
      ">, found </" ++ found ++ ">"

/-- What is written beside the offending character. -/
def label : SyntaxError → String
  | stray _ => "this character cannot start a token"
  | unexpectedToken _ expected _ => "expected " ++ expected.display
  | unexpectedEnd _ expected => "input ends here, expected " ++ expected.display
  | unclosedBlock _ name => "<" ++ name ++ "> is never closed"
  | mismatchedClose _ expected _ => "should close <" ++ expected ++ ">"

end SyntaxError

end HttpdConf
