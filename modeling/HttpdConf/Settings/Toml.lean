import HttpdConf.Error
import HttpdConf.Settings.Toml.Scalar
import HttpdConf.Settings.Toml.Table
import HttpdConf.Settings.Toml.Text

/-!
# Settings in TOML

A reader for TOML 1.0 documents.

## Main definitions

* `Toml.readValue?`: a value
* `Toml.Document`, `Toml.Document.readLine?`: a document under way
* `Toml.read?`: the settings of a whole text
* `Policy.ofToml`: the policy they stand for
-/

namespace HttpdConf

namespace Toml

/-- Values and dotted keys nest less deep than this. -/
def nestingLimit : Nat := 80

def isBareKeyChar (c : Char) : Bool := c.isAlphanum || c == '_' || c == '-'

/-- One key, bare or quoted on one line. -/
def readKey? (cs : List Char) : Option (String × List Char) :=
  match cs with
  | '"' :: rest => (readBasic? rest).map fun (key, rest) => (String.ofList key, rest)
  | '\'' :: rest => (readLiteral? rest).map fun (key, rest) => (String.ofList key, rest)
  | _ =>
    let (key, rest) := cs.span isBareKeyChar
    if key.isEmpty then none else some (String.ofList key, rest)

/-- Keys with dots between them, and what follows them and the blanks after them. -/
def readKeys? : Nat → List Char → Option (List String × List Char)
  | 0, _ => none
  | limit + 1, cs => do
    let (key, rest) ← readKey? (skipSpace cs)
    match skipSpace rest with
    | '.' :: rest =>
      let (keys, rest) ← readKeys? limit rest
      return (key :: keys, rest)
    | rest => return ([key], rest)

/-- A dotted key as its path and last key. -/
def readPath? (cs : List Char) : Option (List String × String × List Char) := do
  let (keys, rest) ← readKeys? (nestingLimit - 1) cs
  return (keys.dropLast, ← keys.getLast?, rest)

mutual
/-- The value at the start of a text, and what follows it. `depth` is how deep values may still
nest; every nested call stands behind a character of its own, so the length of the text is fuel
enough. -/
def readValue? (depth : Nat) : Nat → List Char → Option (Item × List Char)
  | 0, _ => none
  | fuel + 1, cs =>
    match cs with
    | '"' :: _ | '\'' :: _ => (readText? cs).map fun (s, rest) => (.text (String.ofList s), rest)
    | '[' :: rest =>
      if depth ≤ 1 then none
      else (readItems? (depth - 1) fuel rest).map fun (items, rest) => (.array items, rest)
    | '\x7b' :: rest =>
      if depth ≤ 1 then none
      else
        match skipSpace rest with
        | '\x7d' :: rest => some (.inline [], rest)
        | rest =>
          (readFields? (depth - 1) fuel [] rest).map fun (fields, rest) => (.inline fields, rest)
    | _ =>
      let (word, rest) := readWord cs
      if isMoment word then some (.moment, rest)
      else if isFloat word || isInteger word || isTruth word then some (.atom, rest)
      else none

/-- The items of an array up to its closing bracket; a comma may follow the last one. -/
def readItems? (depth : Nat) : Nat → List Char → Option (List Item × List Char)
  | 0, _ => none
  | fuel + 1, cs => do
    match ← skipFiller? false cs with
    | ']' :: rest => return ([], rest)
    | cs =>
      let (item, rest) ← readValue? depth fuel cs
      match ← skipFiller? false rest with
      | ',' :: rest =>
        let (items, rest) ← readItems? depth fuel rest
        return (item :: items, rest)
      | ']' :: rest => return ([item], rest)
      | _ => none

/-- The fields of a table in braces up to its closing brace, added to those read before. -/
def readFields? (depth : Nat) : Nat → Table → List Char → Option (Table × List Char)
  | 0, _, _ => none
  | fuel + 1, table, cs => do
    let (path, key, rest) ← readPath? cs
    match rest with
    | '=' :: rest =>
      let (value, rest) ← readValue? depth fuel (skipSpace rest)
      let table ← table.insert? key value path
      match skipSpace rest with
      | ',' :: rest => readFields? depth fuel table rest
      | '\x7d' :: rest => return (table, rest)
      | _ => none
    | _ => none
end

/-- A document under way: its tables, and the path of the table that keys now belong to. -/
structure Document where
  root : Table
  current : List String

namespace Document

/-- A header, after its opening bracket. -/
def readHeader? (doc : Document) (cs : List Char) : Option (Document × List Char) := do
  let (path, key, rest) ← readPath? cs
  match rest with
  | ']' :: rest =>
    return (⟨← doc.root.open? path key, path ++ [key]⟩, ← skipLineEnd? rest)
  | _ => none

/-- The header of a row, after its opening brackets. -/
def readRowHeader? (doc : Document) (cs : List Char) : Option (Document × List Char) := do
  let (path, key, rest) ← readPath? cs
  match rest with
  | ']' :: ']' :: rest =>
    return (⟨← doc.root.openRow? path key, path ++ [key]⟩, ← skipLineEnd? rest)
  | _ => none

/-- A key with its value. -/
def readField? (doc : Document) (fuel : Nat) (cs : List Char) : Option (Document × List Char) := do
  let (path, key, rest) ← readPath? cs
  match rest with
  | '=' :: rest =>
    let (value, rest) ← readValue? nestingLimit fuel (skipSpace rest)
    let root ← doc.root.modify? (Table.insert? key value path) doc.current
    return (⟨root, doc.current⟩, ← skipLineEnd? rest)
  | _ => none

/-- The lines of a document. Each takes at least one character, so the length of the text is
fuel enough. -/
def readLines? : Nat → Document → List Char → Option Document
  | 0, _, _ => none
  | fuel + 1, doc, cs =>
    match skipSpace cs with
    | [] => some doc
    | '[' :: '[' :: rest => do
      let (doc, rest) ← doc.readRowHeader? rest
      readLines? fuel doc rest
    | '[' :: rest => do
      let (doc, rest) ← doc.readHeader? rest
      readLines? fuel doc rest
    | c :: rest =>
      if c == '#' || c == '\n' || c == '\r' then do
        readLines? fuel doc (← skipLineEnd? (c :: rest))
      else do
        let (doc, rest) ← doc.readField? (fuel + 1) (c :: rest)
        readLines? fuel doc rest

end Document

/-- The settings of a whole text; a byte order mark in front of it does not count. -/
def read? (text : String) : Option Setting :=
  let cs := match text.toList with
    | '\uFEFF' :: rest => rest
    | cs => cs
  (Document.readLines? (cs.length + 1) ⟨[], []⟩ cs).map fun doc =>
    .record (settingFields doc.root)

end Toml

/-- The policy of a TOML text. -/
def Policy.ofToml (text : String) : Except Error Policy :=
  match (Toml.read? text).bind (Setting.policy? false) with
  | some p => .ok p
  | none => .error (.config .badToml)

end HttpdConf
