import HttpdConf.Settings

/-!
# Texts in TOML

The four kinds of quoted text, and the blanks, comments and line breaks between the parts of a
TOML document.

## Main definitions

* `readBasic?`, `readLiteral?`: texts on one line
* `readLongBasic?`, `readLongLiteral?`: texts over several lines
* `skipFiller?`: blanks, comments and line breaks
* `skipLineEnd?`: the rest of a line that says nothing more
-/

namespace HttpdConf.Toml

def isSpace (c : Char) : Bool := c == ' ' || c == '\t'

def skipSpace (cs : List Char) : List Char := cs.dropWhile isSpace

/-- Characters that may be written as they are: no control characters but the tab. -/
def isPlain (c : Char) : Bool := c == '\t' || (0x20 ≤ c.toNat && c.toNat != 0x7F)

/-- Skip blanks, comments and line breaks; the flag tells whether a comment is under way. -/
def skipFiller? : Bool → List Char → Option (List Char)
  | _, [] => some []
  | _, '\n' :: cs => skipFiller? false cs
  | _, '\r' :: '\n' :: cs => skipFiller? false cs
  | true, c :: cs => if isPlain c then skipFiller? true cs else none
  | false, c :: cs =>
    if isSpace c then skipFiller? false cs
    else if c == '#' then skipFiller? true cs
    else some (c :: cs)

/-- A comment, if one starts here. -/
def skipComment (cs : List Char) : List Char :=
  match cs with
  | '#' :: rest => rest.dropWhile isPlain
  | _ => cs

/-- Blanks, a comment and the end of the line or of the text. -/
def skipLineEnd? (cs : List Char) : Option (List Char) :=
  match skipComment (skipSpace cs) with
  | [] => some []
  | '\n' :: rest => some rest
  | '\r' :: '\n' :: rest => some rest
  | _ => none

/-- The character of a one-letter escape. -/
def shortEscape? : Char → Option Char
  | 'b' => some '\x08'
  | 't' => some '\t'
  | 'n' => some '\n'
  | 'f' => some '\x0c'
  | 'r' => some '\r'
  | '"' => some '"'
  | '\\' => some '\\'
  | _ => none

/-- The character whose code point the digits write. -/
def longEscape? (digits : List Char) : Option Char :=
  (readHex? digits.length digits).bind fun (n, _) => scalar? n

/-- Put a character, if there is one, in front of what was read. -/
def push? (c : Option Char) (read : Option (List Char × List Char)) :
    Option (List Char × List Char) :=
  match c, read with
  | some c, some (text, rest) => some (c :: text, rest)
  | _, _ => none

/-- A text after its opening quote, and what follows its closing quote. -/
def readBasic? : List Char → Option (List Char × List Char)
  | [] => none
  | '"' :: cs => some ([], cs)
  | '\\' :: 'u' :: a :: b :: c :: d :: cs => push? (longEscape? [a, b, c, d]) (readBasic? cs)
  | '\\' :: 'U' :: a :: b :: c :: d :: e :: f :: g :: h :: cs =>
    push? (longEscape? [a, b, c, d, e, f, g, h]) (readBasic? cs)
  | '\\' :: e :: cs => push? (shortEscape? e) (readBasic? cs)
  | c :: cs => if isPlain c && c != '\\' then push? (some c) (readBasic? cs) else none

/-- A text without escapes after its opening apostrophe. -/
def readLiteral? : List Char → Option (List Char × List Char)
  | [] => none
  | '\'' :: cs => some ([], cs)
  | c :: cs => if isPlain c then push? (some c) (readLiteral? cs) else none

/-- How a long text goes on after a backslash at the end of a line. -/
inductive Joining where
  /-- no line is being joined -/
  | none
  /-- the line break has still to come -/
  | sameLine
  /-- blanks and line breaks are skipped -/
  | skipping
  deriving DecidableEq

/-- A text of several lines after its opening quotes. Up to two quotes may stand right before the
closing ones. A backslash at the end of a line removes the line break and the blanks after it. -/
def readLongBasic? : Joining → List Char → Option (List Char × List Char)
  | _, [] => none
  | .sameLine, '\n' :: cs => readLongBasic? .skipping cs
  | .sameLine, '\r' :: '\n' :: cs => readLongBasic? .skipping cs
  | .sameLine, c :: cs => if isSpace c then readLongBasic? .sameLine cs else none
  | .skipping, '\n' :: cs => readLongBasic? .skipping cs
  | .skipping, '\r' :: '\n' :: cs => readLongBasic? .skipping cs
  | .skipping, ' ' :: cs => readLongBasic? .skipping cs
  | .skipping, '\t' :: cs => readLongBasic? .skipping cs
  | _, '"' :: '"' :: '"' :: '"' :: '"' :: cs => some (['"', '"'], cs)
  | _, '"' :: '"' :: '"' :: '"' :: cs => some (['"'], cs)
  | _, '"' :: '"' :: '"' :: cs => some ([], cs)
  | _, '\n' :: cs => push? (some '\n') (readLongBasic? .none cs)
  | _, '\r' :: '\n' :: cs => push? (some '\n') (readLongBasic? .none cs)
  | _, '\\' :: 'u' :: a :: b :: c :: d :: cs =>
    push? (longEscape? [a, b, c, d]) (readLongBasic? .none cs)
  | _, '\\' :: 'U' :: a :: b :: c :: d :: e :: f :: g :: h :: cs =>
    push? (longEscape? [a, b, c, d, e, f, g, h]) (readLongBasic? .none cs)
  | _, '\\' :: '\n' :: cs => readLongBasic? .skipping cs
  | _, '\\' :: '\r' :: '\n' :: cs => readLongBasic? .skipping cs
  | _, '\\' :: e :: cs =>
    if isSpace e then readLongBasic? .sameLine cs
    else push? (shortEscape? e) (readLongBasic? .none cs)
  | _, c :: cs => if isPlain c && c != '\\' then push? (some c) (readLongBasic? .none cs) else none

/-- A text of several lines without escapes after its opening apostrophes. -/
def readLongLiteral? : List Char → Option (List Char × List Char)
  | [] => none
  | '\'' :: '\'' :: '\'' :: '\'' :: '\'' :: cs => some (['\'', '\''], cs)
  | '\'' :: '\'' :: '\'' :: '\'' :: cs => some (['\''], cs)
  | '\'' :: '\'' :: '\'' :: cs => some ([], cs)
  | '\n' :: cs => push? (some '\n') (readLongLiteral? cs)
  | '\r' :: '\n' :: cs => push? (some '\n') (readLongLiteral? cs)
  | c :: cs => if isPlain c then push? (some c) (readLongLiteral? cs) else none

/-- A line break right after the opening quotes of a long text does not count. -/
def skipBreak : List Char → List Char
  | '\n' :: cs => cs
  | '\r' :: '\n' :: cs => cs
  | cs => cs

/-- A quoted text of any kind. -/
def readText? : List Char → Option (List Char × List Char)
  | '"' :: '"' :: '"' :: cs => readLongBasic? .none (skipBreak cs)
  | '\'' :: '\'' :: '\'' :: cs => readLongLiteral? (skipBreak cs)
  | '"' :: cs => readBasic? cs
  | '\'' :: cs => readLiteral? cs
  | _ => none

end HttpdConf.Toml
