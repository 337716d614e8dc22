import HttpdConf.Fragment
import HttpdConf.SyntaxError
import HttpdConf.Text.Characters

/-!
# Reading fragments from lexemes

The reader takes the lexemes of a file one after the other. Between statements it waits for the
next one; inside a directive or an open tag it collects arguments; and it keeps a stack of the
blocks that are still open. What it has built so far is a value of type `Reader`, each lexeme
is one step, and reading a file is the fold of the steps.

## Main definitions

* `Reader`: what has been read so far
* `Reader.step`: the effect of one lexeme
* `Reader.finish`: the document, once the text has ended
* `Fragment.ofLexemes`, `Fragment.read`: the document of a list of lexemes, of a text
-/

namespace HttpdConf

/-- A directive whose line has not ended. -/
structure OpenDirective where
  name : String
  arguments : List String
  span : Span
  /-- where the last argument token ended -/
  argumentEnd : Option Nat

/-- An open tag whose `>` has not come yet. -/
structure OpenTag where
  name : String
  arguments : List String
  start : Nat

/-- A block whose close tag has not come yet, with the finished statements before it, latest
first. -/
structure OpenBlock where
  name : String
  arguments : List String
  leading : Span
  header : Span
  before : List Fragment

/-- The statement under way, if any. -/
inductive Pending where
  | nothing
  | directive (d : OpenDirective)
  | tag (t : OpenTag)

/-- What has been read so far. -/
structure Reader where
  /-- end of the last thing that belongs to the tree, a statement or an open tag -/
  lastEnd : Nat
  pending : Pending
  /-- finished statements of the innermost open block, latest first -/
  done : List Fragment
  /-- the open blocks, innermost first -/
  blocks : List OpenBlock

/-- The text of a comment without its leading `#` signs and outer blanks. -/
def commentText (text : String) : String :=
  String.ofList (Text.trim (text.toList.dropWhile (· == '#')))

/-- The argument words of a token inside a directive; none when the token cannot stand there or
ends the line. A `#` starts no comment inside a directive. -/
def Token.argumentWords? : Token → Option (List String)
  | .word text | .quoted text => some [text]
  | .tagEnd => some [">"]
  | .less => some ["<"]
  | .openTag name => some ["<" ++ name]
  | .comment text => some ((Text.words text.toList).map String.ofList)
  | .newline | .closeTag _ => none

/-- The argument a token stands for inside an open tag. -/
def Token.tagArgument? : Token → Option String
  | .word text | .quoted text => some text
  | .less => some "<"
  | _ => none

/-- Add `words` to `arguments`; when `joined`, the first word continues the last argument. -/
def extendArguments (joined : Bool) (arguments words : List String) : List String :=
  match joined, arguments.getLast?, words with
  | true, some last, first :: more => arguments.dropLast ++ (last ++ first) :: more
  | _, _, _ => arguments ++ words

/-- A token that touches the argument token before it continues that argument. -/
def OpenDirective.push (d : OpenDirective) (words : List String) (span : Span) : OpenDirective :=
  { d with
    arguments := extendArguments (d.argumentEnd == some span.start) d.arguments words
    span := ⟨d.span.start, span.stop⟩
    argumentEnd := some span.stop }

namespace Reader

/-- Nothing has been read. -/
def start : Reader := ⟨0, .nothing, [], []⟩

/-- Finish a comment or directive. -/
def addLeaf (source : SourceFile) (r : Reader) (kind : FragmentKind) (span : Span) : Reader :=
  let leaf : Fragment :=
    { source, kind, span, leading := ⟨r.lastEnd, span.start⟩, header := span,
      trailing := .emptyAt span.stop, footer := .emptyAt span.stop, children := [] }
  { r with lastEnd := span.stop, pending := .nothing, done := leaf :: r.done }

/-- The `>` of an open tag makes its block the innermost one. -/
def openBlock (r : Reader) (t : OpenTag) (stop : Nat) : Reader :=
  { lastEnd := stop
    pending := .nothing
    done := []
    blocks :=
      ⟨t.name, t.arguments, ⟨r.lastEnd, t.start⟩, ⟨t.start, stop⟩, r.done⟩ :: r.blocks }

/-- The innermost block ends with the close tag at `span`. -/
def closeBlock (source : SourceFile) (r : Reader) (b : OpenBlock) (outer : List OpenBlock)
    (span : Span) : Reader :=
  let block : Fragment :=
    { source, kind := .block b.name b.arguments, span := ⟨b.header.start, span.stop⟩,
      leading := b.leading, header := b.header, trailing := ⟨r.lastEnd, span.start⟩,
      footer := span, children := r.done.reverse }
  { lastEnd := span.stop, pending := .nothing, done := block :: b.before, blocks := outer }

/-- A lexeme between statements. -/
def stepBetween (source : SourceFile) (r : Reader) (x : Lexeme) : Except SyntaxError Reader :=
  match x.token with
  | .newline => .ok r
  | .comment text => .ok (r.addLeaf source (.comment (commentText text)) x.span)
  | .word name => .ok { r with pending := .directive ⟨name, [], x.span, none⟩ }
  | .openTag name => .ok { r with pending := .tag ⟨name, [], x.span.start⟩ }
  | .closeTag name =>
    match r.blocks with
    | [] => .error (.unexpectedToken x.span.start .statement x.token)
    | b :: outer =>
      if Text.sameName name b.name then .ok (r.closeBlock source b outer x.span)
      else .error (.mismatchedClose x.span.start b.name name)
  | _ => .error (.unexpectedToken x.span.start .statement x.token)

/-- A lexeme inside a directive. -/
def stepDirective (source : SourceFile) (r : Reader) (d : OpenDirective) (x : Lexeme) :
    Except SyntaxError Reader :=
  match x.token.argumentWords? with
  | some words => .ok { r with pending := .directive (d.push words x.span) }
  | none =>
    if x.token = .newline then .ok (r.addLeaf source (.directive d.name d.arguments) d.span)
    else .error (.unexpectedToken x.span.start .argument x.token)

/-- A lexeme inside an open tag. -/
def stepTag (r : Reader) (t : OpenTag) (x : Lexeme) : Except SyntaxError Reader :=
  match x.token.tagArgument? with
  | some word => .ok { r with pending := .tag { t with arguments := t.arguments ++ [word] } }
  | none =>
    if x.token = .tagEnd then .ok (r.openBlock t x.span.stop)
    else .error (.unexpectedToken x.span.start (.tagEnd t.name) x.token)

/-- The effect of one lexeme. -/
def step (source : SourceFile) (r : Reader) (x : Lexeme) : Except SyntaxError Reader :=
  match r.pending with
  | .nothing => r.stepBetween source x
  | .directive d => r.stepDirective source d x
  | .tag t => r.stepTag t x

/-- The end of the text ends a directive. -/
def endLine (source : SourceFile) (r : Reader) : Reader :=
  match r.pending with
  | .directive d => r.addLeaf source (.directive d.name d.arguments) d.span
  | _ => r

/-- The document, once all lexemes have been read. -/
def finish (source : SourceFile) (r : Reader) : Except SyntaxError Fragment :=
  let r := r.endLine source
  let length := source.length
  match r.pending, r.blocks with
  | .tag t, _ => .error (.unexpectedEnd length (.tagEnd t.name))
  | _, b :: _ => .error (.unclosedBlock b.header.start b.name)
  | _, [] =>
    .ok
      { source, kind := .document, span := ⟨0, length⟩, leading := .emptyAt 0,
        header := .emptyAt 0, trailing := ⟨r.lastEnd, length⟩, footer := .emptyAt length,
        children := r.done.reverse }

end Reader

/-- The document of a file with the given lexemes. -/
def Fragment.ofLexemes (source : SourceFile) (lexemes : List Lexeme) :
    Except SyntaxError Fragment := do
  (← lexemes.foldlM (Reader.step source) Reader.start).finish source

/-- The document of a file. -/
def Fragment.read (source : SourceFile) : Except SyntaxError Fragment :=
  match scan source.text with
  | .error character => .error (.stray character)
  | .ok lexemes => Fragment.ofLexemes source lexemes

end HttpdConf
