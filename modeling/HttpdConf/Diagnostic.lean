import HttpdConf.Path
import HttpdConf.SyntaxError
import HttpdConf.Text.Characters
import HttpdConf.Text.Width

/-!
# Diagnostics

A diagnostic shows an error at its place: the line of the text, a marker under the offending
character, and the error's label.

## Main definitions

* `markedSpan?`: the character that a position points at
* `Spot`, `Spot.locate?`: the line and column of a position
* `SyntaxError.report?`: the drawn diagnostic
-/

namespace HttpdConf

/-- The span of the character at `position`, empty when the position is at or past the end; none
when it falls inside a character. -/
def markedSpan? (position : Nat) (cs : List Char) : Option Span :=
  let start := min position (Text.byteLength cs)
  match Text.dropBytes? start cs with
  | none => none
  | some [] => some ⟨start, start⟩
  | some (c :: _) => some ⟨start, start + c.utf8Size⟩

/-- Characters that end a line of a diagnostic. -/
def isLineEnd (c : Char) : Bool :=
  c == '\r' || c == '\n' || c == '\x0b' || c == '\x0c' || c == '\u0085' || c == '\u2028' ||
    c == '\u2029'

/-- The lines of a text with their terminators; `CR LF` is one terminator, and no empty line
follows the last one. -/
def splitLines : List Char → List (List Char)
  | [] => []
  | '\r' :: '\n' :: cs => ['\r', '\n'] :: splitLines cs
  | c :: cs =>
    if isLineEnd c then [c] :: splitLines cs
    else
      match splitLines cs with
      | [] => [[c]]
      | line :: rest => (c :: line) :: rest

/-- Where a position lies: the line, counted from zero, its characters and the number of
characters before the position. -/
structure Spot where
  line : Nat
  chars : List Char
  column : Nat

/-- The number of characters that start before the byte offset `n`. -/
def charsBefore : Nat → List Char → Nat
  | 0, _ => 0
  | _ + 1, [] => 0
  | n + 1, c :: cs => charsBefore (n + 1 - c.utf8Size) cs + 1

/-- The last of the lines that starts at or before `start` bytes from the first. -/
def Spot.among (line start : Nat) : List (List Char) → Spot
  | [] => ⟨line, [], 0⟩
  | [chars] => ⟨line, chars, charsBefore start chars⟩
  | chars :: next :: rest =>
    if Text.byteLength chars ≤ start then
      Spot.among (line + 1) (start - Text.byteLength chars) (next :: rest)
    else ⟨line, chars, charsBefore start chars⟩

/-- The line and column of a byte offset. -/
def Spot.locate (cs : List Char) (start : Nat) : Spot :=
  Spot.among 0 start (splitLines cs)

/-- The number of columns of the character at index `i` of a line: tabs reach the next multiple of
four characters, other blanks take one column. -/
def columnsAt (i : Nat) (c : Char) : Nat :=
  if c == '\t' then 4 - i % 4 else if Text.isBlank c then 1 else Text.terminalWidth c

/-- A line as it is shown: blanks become spaces. -/
def shownLine (chars : List Char) : String :=
  String.ofList <| (chars.zipIdx.map fun (c, i) =>
    if Text.isBlank c then List.replicate (columnsAt i c) ' ' else [c]).flatten

/-- The widths of the first `count` cells under a line; past its end every cell is one column
wide. -/
def cellWidths (chars : List Char) (count : Nat) : List Nat :=
  ((chars.zipIdx.map fun (c, i) => columnsAt i c) ++ List.replicate count 1).take count

/-- A cell: `first`, filled up with `fill` to its width. -/
def cell (first fill : Char) : Nat → List Char
  | 0 => []
  | width + 1 => first :: List.replicate width fill

/-- The row right under the line: a marker under the column. -/
def markerRow (chars : List Char) (column last : Nat) (marked : Bool) : String :=
  String.ofList <| ((cellWidths chars (last + 1)).zipIdx.map fun (width, i) =>
    if i == column then (if marked then cell '┬' '─' width else cell '│' ' ' width)
    else cell ' ' ' ' width).flatten

/-- The row that leads from the marker to the label. -/
def labelRow (chars : List Char) (column last : Nat) : String :=
  String.ofList <| ((cellWidths chars (last + 1)).zipIdx.map fun (width, i) =>
    if i < column then cell ' ' ' ' width
    else if i == column then cell '╰' '─' width
    else cell '─' '─' width).flatten

def spaces (n : Nat) : String := String.ofList (List.replicate n ' ')

/-- The diagnostic of an error in the text of the file at `path`; none when the error's position
falls inside a character of the text. -/
def SyntaxError.report? (e : SyntaxError) (path : Path) (text : String) : Option String :=
  (markedSpan? e.position text.toList).map fun marked =>
    let spot := Spot.locate text.toList marked.start
    let shown := Text.trimEnd spot.chars
    let number := toString (spot.line + 1)
    let margin := spaces (number.length + 2)
    let last := if marked.isEmpty then spot.column + 1 else spot.column + 2
    String.join <| [
      "Error: " ++ e.message,
      margin ++ "╭─[ " ++ path.text ++ ":" ++ number ++ ":" ++ toString (spot.column + 1) ++
        " ]",
      margin ++ "│",
      " " ++ number ++ " │ " ++ shownLine shown,
      margin ++ "│ " ++ markerRow shown spot.column last (!marked.isEmpty),
      margin ++ "│ " ++ labelRow shown spot.column last ++ " " ++ e.label,
      String.ofList (List.replicate (number.length + 2) '─') ++ "╯"].map (· ++ "\n")

end HttpdConf
