import HttpdConf.Error
import HttpdConf.Settings

/-!
# Settings in JSON

A reader for JSON texts. It keeps what settings need: texts, lists and records; numbers, truth
values and null are checked and forgotten.

## Main definitions

* `Json.read?`: the value of a whole text
* `Policy.ofJson`: the policy it stands for
-/

namespace HttpdConf

namespace Json

def isSpace (c : Char) : Bool := c == ' ' || c == '\t' || c == '\n' || c == '\r'

def skipSpace (cs : List Char) : List Char := cs.dropWhile isSpace

/-- The code points of a string up to its closing quote, and what follows the quote. Escaped
surrogates are code points of their own. -/
def readUnits? : List Char → Option (List Nat × List Char)
  | [] => none
  | '"' :: cs => some ([], cs)
  | '\\' :: 'u' :: a :: b :: c :: d :: cs =>
    match readHex? 4 [a, b, c, d] with
    | some (n, _) => (readUnits? cs).map fun (units, rest) => (n :: units, rest)
    | none => none
  | '\\' :: e :: cs =>
    let plain? : Option Char := match e with
      | '"' => some '"'
      | '\\' => some '\\'
      | '/' => some '/'
      | 'b' => some '\x08'
      | 'f' => some '\x0c'
      | 'n' => some '\n'
      | 'r' => some '\r'
      | 't' => some '\t'
      | _ => none
    match plain? with
    | some c => (readUnits? cs).map fun (units, rest) => (c.toNat :: units, rest)
    | none => none
  | c :: cs =>
    if c.toNat < 0x20 || c == '\\' then none
    else (readUnits? cs).map fun (units, rest) => (c.toNat :: units, rest)

def isHighSurrogate (n : Nat) : Bool := 0xD800 ≤ n && n ≤ 0xDBFF

def isLowSurrogate (n : Nat) : Bool := 0xDC00 ≤ n && n ≤ 0xDFFF

/-- The characters of a list of code points, where a high and a low surrogate make one character
together; a surrogate alone makes none. -/
def decodeUnits? : List Nat → Option (List Char)
  | [] => some []
  | [n] => (scalar? n).map ([·])
  | n :: m :: rest =>
    if isHighSurrogate n && isLowSurrogate m then do
      let c ← scalar? (0x10000 + (n - 0xD800) * 0x400 + (m - 0xDC00))
      return c :: (← decodeUnits? rest)
    else do
      let c ← scalar? n
      return c :: (← decodeUnits? (m :: rest))

/-- A string after its opening quote. -/
def readText? (cs : List Char) : Option (Option String × List Char) :=
  (readUnits? cs).map fun (units, rest) => ((decodeUnits? units).map String.ofList, rest)

/-- At least one digit. -/
def skipDigits? (cs : List Char) : Option (List Char) :=
  match cs with
  | c :: rest => if c.isDigit then some (rest.dropWhile Char.isDigit) else none
  | [] => none

/-- The part of a number before its point: no needless leading zero. -/
def skipWhole? : List Char → Option (List Char)
  | '0' :: c :: rest => if c.isDigit then none else some (c :: rest)
  | cs => skipDigits? cs

def skipFraction? : List Char → Option (List Char)
  | '.' :: cs => skipDigits? cs
  | cs => some cs

def skipExponent? : List Char → Option (List Char)
  | e :: cs =>
    if e == 'e' || e == 'E' then
      match cs with
      | '+' :: rest | '-' :: rest => skipDigits? rest
      | rest => skipDigits? rest
    else some (e :: cs)
  | [] => some []

/-- What follows a number. -/
def skipNumber? (cs : List Char) : Option (List Char) := do
  let cs := match cs with
    | '-' :: rest => rest
    | _ => cs
  skipExponent? (← skipFraction? (← skipWhole? cs))

mutual
/-- The value at the start of a text and what follows it. Every nested call stands behind a
character of its own, so the length of the text is fuel enough. -/
def readValue? : Nat → List Char → Option (Setting × List Char)
  | 0, _ => none
  | fuel + 1, cs =>
    match skipSpace cs with
    | '"' :: rest => (readText? rest).map fun (s, rest) => (.text s, rest)
    | '[' :: rest =>
      match skipSpace rest with
      | ']' :: rest => some (.list [], rest)
      | rest => (readItems? fuel rest).map fun (items, rest) => (.list items, rest)
    | '\x7b' :: rest =>
      match skipSpace rest with
      | '\x7d' :: rest => some (.record [], rest)
      | rest => (readFields? fuel rest).map fun (fields, rest) => (.record fields, rest)
    | 't' :: 'r' :: 'u' :: 'e' :: rest => some (.atom, rest)
    | 'f' :: 'a' :: 'l' :: 's' :: 'e' :: rest => some (.atom, rest)
    | 'n' :: 'u' :: 'l' :: 'l' :: rest => some (.atom, rest)
    | rest => (skipNumber? rest).map fun rest => (.atom, rest)

/-- The items of a list up to its closing bracket. -/
def readItems? : Nat → List Char → Option (List Setting × List Char)
  | 0, _ => none
  | fuel + 1, cs => do
    let (item, rest) ← readValue? fuel cs
    match skipSpace rest with
    | ',' :: rest =>
      let (items, rest) ← readItems? fuel rest
      return (item :: items, rest)
    | ']' :: rest => return ([item], rest)
    | _ => none

/-- The fields of a record up to its closing brace. -/
def readFields? : Nat → List Char → Option (List (Option String × Setting) × List Char)
  | 0, _ => none
  | fuel + 1, cs =>
    match skipSpace cs with
    | '"' :: rest => do
      let (key, rest) ← readText? rest
      match skipSpace rest with
      | ':' :: rest =>
        let (value, rest) ← readValue? fuel rest
        match skipSpace rest with
        | ',' :: rest =>
          let (fields, rest) ← readFields? fuel rest
          return ((key, value) :: fields, rest)
        | '\x7d' :: rest => return ([(key, value)], rest)
        | _ => none
      | _ => none
    | _ => none
end

/-- The value of a whole text. -/
def read? (text : String) : Option Setting :=
  match readValue? (text.length + 1) text.toList with
  | some (value, rest) => if (skipSpace rest).isEmpty then some value else none
  | none => none

end Json

/-- The policy of a JSON text. A record written as a list may not have more items than fields. -/
def Policy.ofJson (text : String) : Except Error Policy :=
  match (Json.read? text).bind (Setting.policy? true) with
  | some p => .ok p
  | none => .error (.config .badJson)

end HttpdConf
