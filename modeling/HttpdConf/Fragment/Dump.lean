import HttpdConf.Fragment

/-!
# Fragments as JSON

Fragments are printed as JSON with two spaces for each level. Only quotes, backslashes and control
characters are escaped.

## Main definitions

* `Printed`: a JSON value to print, its fields in order
* `Printed.pretty`: its text
* `Fragment.printed`, `Fragment.dump`: a fragment as JSON
-/

namespace HttpdConf

/-- A JSON value to print. -/
inductive Printed where
  | number (n : Nat)
  | text (s : String)
  | list (items : List Printed)
  | record (fields : List (String × Printed))

namespace Printed

/-- The two hexadecimal digits of a control character. -/
def hexPair (n : Nat) : List Char :=
  [Nat.digitChar (n / 16 % 16), Nat.digitChar (n % 16)]

/-- How a character is written in a quoted text. -/
def escape (c : Char) : List Char :=
  match c with
  | '"' => ['\\', '"']
  | '\\' => ['\\', '\\']
  | '\x08' => ['\\', 'b']
  | '\x0c' => ['\\', 'f']
  | '\n' => ['\\', 'n']
  | '\r' => ['\\', 'r']
  | '\t' => ['\\', 't']
  | c => if c.toNat < 0x20 then ['\\', 'u', '0', '0'] ++ hexPair c.toNat else [c]

/-- A text in quotes. -/
def quote (s : String) : String :=
  String.ofList ('"' :: (s.toList.flatMap escape ++ ['"']))

/-- The text so far, continued by the start of a line at a level. -/
def newLine (level : Nat) (out : String) : String := (out ++ "\n").pushn ' ' (2 * level)

mutual
/-- The text so far, continued by a value whose line is at the given level. -/
def prettyAfter (level : Nat) (out : String) : Printed → String
  | .number n => out ++ toString n
  | .text s => out ++ quote s
  | .list [] => out ++ "[]"
  | .list (item :: rest) =>
    let start := newLine (level + 1) (out ++ "[")
    newLine level (prettyItems level (prettyAfter (level + 1) start item) rest) ++ "]"
  | .record [] => out ++ "\x7b\x7d"
  | .record ((key, value) :: rest) =>
    let start := newLine (level + 1) (out ++ "\x7b") ++ quote key ++ ": "
    newLine level (prettyFields level (prettyAfter (level + 1) start value) rest) ++ "\x7d"

/-- The text so far, continued by the items after the first one. -/
def prettyItems (level : Nat) (out : String) : List Printed → String
  | [] => out
  | item :: rest =>
    prettyItems level (prettyAfter (level + 1) (newLine (level + 1) (out ++ ",")) item) rest

/-- The text so far, continued by the fields after the first one. -/
def prettyFields (level : Nat) (out : String) : List (String × Printed) → String
  | [] => out
  | (key, value) :: rest =>
    let start := newLine (level + 1) (out ++ ",") ++ quote key ++ ": "
    prettyFields level (prettyAfter (level + 1) start value) rest
end

/-- The text of a value. -/
def pretty (value : Printed) : String := prettyAfter 0 "" value

end Printed

def Span.printed (s : Span) : Printed :=
  .record [("start", .number s.start), ("end", .number s.stop)]

/-- The fields that tell what a fragment stands for. -/
def FragmentKind.printed : FragmentKind → List (String × Printed)
  | document => [("type", .text "document")]
  | comment text => [("type", .text "comment"), ("text", .text text)]
  | directive name arguments =>
    [("type", .text "directive"), ("name", .text name),
      ("arguments", .list (arguments.map .text))]
  | block name arguments =>
    [("type", .text "block"), ("name", .text name), ("arguments", .list (arguments.map .text))]

namespace Fragment

mutual
/-- A fragment as JSON; the children stand last and only if there are any. -/
def printed : Fragment → Printed
  | ⟨_, kind, span, leading, header, trailing, footer, children⟩ =>
    let spans := [("span", span.printed), ("leading", leading.printed), ("header", header.printed),
      ("trailing", trailing.printed), ("footer", footer.printed)]
    .record (kind.printed ++ spans ++
      (if children.isEmpty then [] else [("children", .list (printedAll children))]))

def printedAll : List Fragment → List Printed
  | [] => []
  | f :: rest => printed f :: printedAll rest
end

/-- The JSON text of a fragment. -/
def dump (f : Fragment) : String := f.printed.pretty

end Fragment

end HttpdConf
