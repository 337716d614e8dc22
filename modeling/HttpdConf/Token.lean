import HttpdConf.Text.Bytes

/-!
# Tokens

The words of configuration text. Blanks and joined lines separate tokens and are not tokens
themselves; a line break is one, because it ends a directive.

Text is cut into pieces from left to right, each as long as possible. A piece is a token or
something that only separates tokens: a blank, or a backslash that joins a line with the next one.
A token keeps its place in the text, a range of byte offsets.

## Main definitions

* `Span`, `Span.isEmpty`: ranges of byte offsets
* `Token`, `Token.display`: how a token is named in messages
* `Lexeme`: a token at its place in the text
* `Piece`, `Piece.read?`: the piece at the start of a text
* `scan`: the tokens of a text with their spans, or the place where no piece starts

## Main results

* `Piece.text_append_rest`: reading a piece loses nothing
* `Piece.text_ne_nil`: a piece is never empty
-/

namespace HttpdConf

/-- A half-open range of byte offsets. -/
structure Span where
  start : Nat
  stop : Nat
  deriving DecidableEq, Repr

namespace Span

/-- The span of no bytes at an offset. -/
def emptyAt (offset : Nat) : Span := ⟨offset, offset⟩

/-- A span covers nothing when it does not start before it stops. -/
def isEmpty (s : Span) : Bool := s.stop ≤ s.start

end Span

inductive Token where
  /-- a line break -/
  | newline
  /-- `<Name`, the start of a block's open tag -/
  | openTag (name : String)
  /-- `</Name>` -/
  | closeTag (name : String)
  /-- `>` -/
  | tagEnd
  /-- a `<` that starts no tag -/
  | less
  /-- from `#` to the end of the line -/
  | comment (text : String)
  /-- a quoted literal, quotes included -/
  | quoted (text : String)
  /-- any other run of characters -/
  | word (text : String)
  deriving DecidableEq, Repr

/-- How a token is shown to the user. -/
def Token.display : Token → String
  | newline => "newline"
  | openTag name => "<" ++ name
  | closeTag name => "</" ++ name ++ ">"
  | tagEnd => ">"
  | less => "<"
  | comment text => text
  | quoted text => text
  | word text => text

/-- A token at its place in the text. -/
structure Lexeme where
  token : Token
  span : Span
  deriving DecidableEq, Repr

/-! ## Pieces -/

/-- Blanks between tokens. Other white space is part of words. -/
def isSeparator (c : Char) : Bool := c == ' ' || c == '\t' || c == '\x0c'

def isNameStart (c : Char) : Bool := c.isAlpha || c == '_'

def isNameChar (c : Char) : Bool := c.isAlphanum || c == '_' || c == '.' || c == ':' || c == '-'

/-- Characters that may stand inside a word. -/
def isWordChar (c : Char) : Bool :=
  !(isSeparator c || c == '\r' || c == '\n' || c == '"' || c == '<' || c == '>')

/-- Whether a text starts with a line break, `LF` or `CR LF`. -/
def startsWithBreak : List Char → Bool
  | '\n' :: _ => true
  | '\r' :: '\n' :: _ => true
  | _ => false

/-- A word runs up to the first character that is no word character, or up to a backslash that
joins lines. -/
def spanWord : List Char → List Char × List Char
  | [] => ([], [])
  | c :: cs =>
    if isWordChar c && !(c == '\\' && startsWithBreak cs) then
      let (word, rest) := spanWord cs
      (c :: word, rest)
    else ([], c :: cs)

/-- The rest of a quoted literal after its opening quote, closing quote included. A backslash
takes the next character with it, which may not be `LF`. -/
def spanQuoted? : List Char → Option (List Char × List Char)
  | [] => none
  | '"' :: cs => some (['"'], cs)
  | '\\' :: [] => none
  | '\\' :: c :: cs =>
    if c == '\n' then none else (spanQuoted? cs).map fun (body, rest) => ('\\' :: c :: body, rest)
  | c :: cs => (spanQuoted? cs).map fun (body, rest) => (c :: body, rest)

/-- A piece of text: the token it is, if it is one, its characters and what follows. -/
structure Piece where
  token : Option Token
  text : List Char
  rest : List Char

namespace Piece

/-- `</Name>`, blanks allowed before the `>`; the text is what follows `</`. -/
def readCloseTag? (cs : List Char) : Option Piece :=
  let name := cs.takeWhile isNameChar
  let tail := cs.dropWhile isNameChar
  let gap := tail.takeWhile fun c => c == ' ' || c == '\t'
  match tail.dropWhile fun c => c == ' ' || c == '\t' with
  | '>' :: rest =>
    some ⟨some (.closeTag (String.ofList name)), '<' :: '/' :: (name ++ (gap ++ ['>'])), rest⟩
  | _ => none

/-- `<Name`; the text is what follows `<`. -/
def readOpenTag (cs : List Char) : Piece :=
  let name := cs.takeWhile isNameChar
  ⟨some (.openTag (String.ofList name)), '<' :: name, cs.dropWhile isNameChar⟩

/-- The piece after a `<`. A tag name must follow `</` immediately for a close tag, which then
has to be complete. -/
def readAngle? (cs : List Char) : Option Piece :=
  match cs with
  | '/' :: c :: rest =>
    if isNameStart c then readCloseTag? (c :: rest) else some ⟨some .less, ['<'], cs⟩
  | c :: rest =>
    if isNameStart c then some (readOpenTag (c :: rest)) else some ⟨some .less, ['<'], cs⟩
  | [] => some ⟨some .less, ['<'], []⟩

/-- The piece that starts with `c` and goes on in `cs`, if there is one. -/
def read? (c : Char) (cs : List Char) : Option Piece :=
  if isSeparator c then some ⟨none, [c], cs⟩
  else
    match c with
    | '\n' => some ⟨some .newline, ['\n'], cs⟩
    | '\r' =>
      match cs with
      | '\n' :: rest => some ⟨some .newline, ['\r', '\n'], rest⟩
      | _ => none
    | '#' =>
      let body := cs.takeWhile fun d => !(d == '\r' || d == '\n')
      some ⟨some (.comment (String.ofList ('#' :: body))), '#' :: body,
        cs.dropWhile fun d => !(d == '\r' || d == '\n')⟩
    | '"' =>
      (spanQuoted? cs).map fun (body, rest) =>
        ⟨some (.quoted (String.ofList ('"' :: body))), '"' :: body, rest⟩
    | '>' => some ⟨some .tagEnd, ['>'], cs⟩
    | '<' => readAngle? cs
    | c =>
      match c, cs with
      | '\\', '\n' :: rest => some ⟨none, ['\\', '\n'], rest⟩
      | '\\', '\r' :: '\n' :: rest => some ⟨none, ['\\', '\r', '\n'], rest⟩
      | c, cs =>
        let (more, rest) := spanWord cs
        some ⟨some (.word (String.ofList (c :: more))), c :: more, rest⟩

end Piece

/-! ## Reading loses nothing -/

theorem spanWord_append (cs : List Char) : (spanWord cs).1 ++ (spanWord cs).2 = cs := by
  induction cs with
  | nil => rfl
  | cons c cs ih =>
    unfold spanWord
    split
    · simp [ih]
    · simp

theorem spanQuoted?_append {cs body rest : List Char} (h : spanQuoted? cs = some (body, rest)) :
    body ++ rest = cs := by
  fun_induction spanQuoted? cs generalizing body with
  | case1 => simp at h
  | case2 cs => simp at h; obtain ⟨rfl, rfl⟩ := h; rfl
  | case3 => simp at h
  | case4 => simp at h
  | case5 c cs _ ih =>
    obtain ⟨⟨b, r⟩, hb, he⟩ := Option.map_eq_some_iff.1 h
    simp only [Prod.mk.injEq] at he
    obtain ⟨rfl, rfl⟩ := he
    simp [ih hb]
  | case6 c cs _ _ _ ih =>
    obtain ⟨⟨b, r⟩, hb, he⟩ := Option.map_eq_some_iff.1 h
    simp only [Prod.mk.injEq] at he
    obtain ⟨rfl, rfl⟩ := he
    simp [ih hb]

namespace Piece

theorem readCloseTag?_append {cs : List Char} {p : Piece} (h : readCloseTag? cs = some p) :
    ∃ more, p.text = '<' :: more ∧ more ++ p.rest = '/' :: cs := by
  unfold readCloseTag? at h
  simp only at h
  split at h
  · rename_i rest hrest
    obtain rfl := Option.some.inj h
    have hgap := List.takeWhile_append_dropWhile
      (p := fun c => c == ' ' || c == '\t') (l := cs.dropWhile isNameChar)
    have hname := List.takeWhile_append_dropWhile (p := isNameChar) (l := cs)
    rw [hrest] at hgap
    exact ⟨_, rfl, by simp [hgap, hname]⟩
  · simp at h

theorem readAngle?_append {cs : List Char} {p : Piece} (h : readAngle? cs = some p) :
    ∃ more, p.text = '<' :: more ∧ more ++ p.rest = cs := by
  unfold readAngle? at h
  split at h
  · split at h
    · exact readCloseTag?_append h
    · obtain rfl := Option.some.inj h; exact ⟨[], rfl, rfl⟩
  · split at h
    · obtain rfl := Option.some.inj h
      exact ⟨_, rfl, by simp [readOpenTag]⟩
    · obtain rfl := Option.some.inj h; exact ⟨[], rfl, rfl⟩
  · obtain rfl := Option.some.inj h; exact ⟨[], rfl, rfl⟩

/-- A piece starts with the first character and goes on in the text that follows. -/
theorem read?_append {c : Char} {cs : List Char} {p : Piece} (h : read? c cs = some p) :
    ∃ more, p.text = c :: more ∧ more ++ p.rest = cs := by
  unfold read? at h
  split at h
  · obtain rfl := Option.some.inj h; exact ⟨[], rfl, rfl⟩
  · split at h
    · obtain rfl := Option.some.inj h; exact ⟨[], rfl, rfl⟩
    · split at h
      · obtain rfl := Option.some.inj h; exact ⟨_, rfl, rfl⟩
      · simp at h
    · obtain rfl := Option.some.inj h
      exact ⟨_, rfl, by simp⟩
    · obtain ⟨⟨b, r⟩, hb, rfl⟩ := Option.map_eq_some_iff.1 h
      exact ⟨_, rfl, spanQuoted?_append hb⟩
    · obtain rfl := Option.some.inj h; exact ⟨[], rfl, rfl⟩
    · exact readAngle?_append h
    · split at h
      · obtain rfl := Option.some.inj h; exact ⟨_, rfl, rfl⟩
      · obtain rfl := Option.some.inj h; exact ⟨_, rfl, rfl⟩
      · obtain rfl := Option.some.inj h
        exact ⟨_, rfl, spanWord_append _⟩

/-- A piece and what follows it make up the text. -/
theorem text_append_rest {c : Char} {cs : List Char} {p : Piece} (h : read? c cs = some p) :
    p.text ++ p.rest = c :: cs := by
  obtain ⟨more, htext, hmore⟩ := read?_append h
  simp [htext, hmore]

/-- A piece is never empty. -/
theorem text_ne_nil {c : Char} {cs : List Char} {p : Piece} (h : read? c cs = some p) :
    p.text ≠ [] := by
  obtain ⟨more, htext, -⟩ := read?_append h
  simp [htext]

theorem rest_length_lt {c : Char} {cs : List Char} {p : Piece} (h : read? c cs = some p) :
    p.rest.length < (c :: cs).length := by
  obtain ⟨more, -, rfl⟩ := read?_append h
  simp only [List.length_cons, List.length_append]
  omega

end Piece

/-- A place where no token can start. -/
structure StrayCharacter where
  position : Nat
  deriving DecidableEq, Repr

def StrayCharacter.message (e : StrayCharacter) : String :=
  "Unexpected character at position " ++ toString e.position

/-- The lexeme a piece amounts to when it starts at `offset`. -/
def Piece.lexeme? (offset : Nat) (p : Piece) : Option Lexeme :=
  p.token.map fun token => ⟨token, ⟨offset, offset + Text.byteLength p.text⟩⟩

/-- The lexemes of a text whose first byte is at `offset`. -/
def scanFrom (offset : Nat) (cs : List Char) : Except StrayCharacter (List Lexeme) :=
  match cs with
  | [] => .ok []
  | c :: rest =>
    match h : Piece.read? c rest with
    | none => .error ⟨offset⟩
    | some p =>
      have := Piece.rest_length_lt h
      match scanFrom (offset + Text.byteLength p.text) p.rest with
      | .error e => .error e
      | .ok lexemes => .ok ((p.lexeme? offset).toList ++ lexemes)
termination_by cs.length
decreasing_by exact this

/-- The lexemes of a text. -/
def scan (text : String) : Except StrayCharacter (List Lexeme) :=
  scanFrom 0 text.toList

end HttpdConf
