import HttpdConf.Fragment.Reader
import HttpdConf.Proofs.Chunks
import HttpdConf.Tree

/-!
# Shapes and layouts

The shape of a document is what it says: which comments, directives and blocks there are, in which
order and nesting, with their names, arguments and texts. Fragments and live trees have shapes; a
whole file counts as a block without a name.

A layout is a statement as it is written: the gap before it, the chunks of its own text and, for a
block, the layouts of the statements inside. A page is the layout of a whole file. Laid at an
offset of a file, a layout becomes a fragment, whose spans follow from the lengths of the chunks.

## Main definitions

* `Shape`, `Fragment.shape`, `Tree.shape`: what a document says
* `Layout`, `Page`: statements and whole files as they are written
* `Layout.Grammatical`: the tokens stand where the grammar allows them, and lines end where they
  have to
* `Layout.place`, `Page.place`: the fragment of a layout at an offset
* `Page.Legible`: a page that is grammatical and made of written chunks
-/

namespace HttpdConf

/-! ## Shapes -/

/-- What a statement says. -/
inductive Shape where
  | comment (text : String)
  | directive (name : String) (arguments : List String)
  | block (name : String) (arguments : List String) (children : List Shape)

mutual
/-- The shape without the arguments of its directives and blocks. -/
def Shape.outline : Shape → Shape
  | .comment text => .comment text
  | .directive name _ => .directive name []
  | .block name _ children => .block name [] (Shape.outlines children)

def Shape.outlines : List Shape → List Shape
  | [] => []
  | s :: rest => s.outline :: Shape.outlines rest
end

mutual
/-- What a fragment says. -/
def Fragment.shape : Fragment → Shape
  | ⟨_, kind, _, _, _, _, _, children⟩ =>
    match kind with
    | .document => .block "" [] (Fragment.shapes children)
    | .comment text => .comment text
    | .directive name arguments => .directive name arguments
    | .block name arguments => .block name arguments (Fragment.shapes children)

def Fragment.shapes : List Fragment → List Shape
  | [] => []
  | f :: rest => f.shape :: Fragment.shapes rest
end

mutual
/-- What a live tree says. -/
def Tree.shape : Tree → Shape
  | .comment _ text => .comment text
  | .directive _ statement => .directive statement.name statement.parameters
  | .block _ statement children =>
    .block statement.name statement.parameters (Forest.shapes children)

def Forest.shapes : Forest → List Shape
  | [] => []
  | t :: rest => t.shape :: Forest.shapes rest
end

/-! ## Kinds of chunks -/

namespace Chunk

/-- Whether a chunk stands in gaps: a blank, a joined line or a line break. -/
def isGap (k : Chunk) : Bool :=
  match k.token with
  | none | some .newline => true
  | _ => false

/-- Whether a chunk may stand inside a directive after its name. -/
def isArgument (k : Chunk) : Bool := k.token.all fun t => t.argumentWords?.isSome

/-- Whether a chunk may stand inside an open tag after its name. -/
def isTagArgument (k : Chunk) : Bool := k.token.all fun t => t.tagArgument?.isSome

end Chunk

/-- Whether there is a line break among some chunks. -/
def breaksLine (ks : List Chunk) : Bool := ks.any fun k => k.token == some .newline

@[simp]
theorem breaksLine_append (as bs : List Chunk) :
    breaksLine (as ++ bs) = (breaksLine as || breaksLine bs) := by
  simp [breaksLine]

/-- The arguments that the chunks after a directive's name add to the given ones. A token that
touches the token before it goes on with the last argument. -/
def gatherArguments (touching : Bool) (arguments : List String) : List Chunk → List String
  | [] => arguments
  | k :: ks =>
    match k.token.bind Token.argumentWords? with
    | none => gatherArguments false arguments ks
    | some words => gatherArguments true (extendArguments touching arguments words) ks

/-- Whether a token after some chunks goes on with the argument that they end with. -/
def goesOn (touching : Bool) (ks : List Chunk) : Bool :=
  (ks.getLast?.map fun k => (k.token.bind Token.argumentWords?).isSome).getD touching

theorem gatherArguments_append (touching : Bool) (arguments : List String) (as bs : List Chunk) :
    gatherArguments touching arguments (as ++ bs) =
      gatherArguments (goesOn touching as) (gatherArguments touching arguments as) bs := by
  induction as generalizing touching arguments with
  | nil => rfl
  | cons k as ih =>
    have hlast : goesOn touching (k :: as) =
        goesOn (k.token.bind Token.argumentWords?).isSome as := by
      cases hk : as.getLast? <;> simp [goesOn, List.getLast?_cons, hk]
    rw [List.cons_append, gatherArguments, gatherArguments, hlast]
    cases hwords : k.token.bind Token.argumentWords? with
    | none => exact ih _ _
    | some words => exact ih _ _

/-- Blanks add no arguments. -/
theorem gatherArguments_blanks (touching : Bool) (arguments : List String) {ks : List Chunk}
    (h : ∀ k ∈ ks, k.token = none) : gatherArguments touching arguments ks = arguments := by
  induction ks generalizing touching with
  | nil => rfl
  | cons k ks ih =>
    have hk : k.token = none := h k (by simp)
    simp only [gatherArguments, hk, Option.bind_none]
    exact ih _ fun x hx => h x (by simp [hx])

/-- The arguments that stand in an open tag after its name. -/
def tagArguments (ks : List Chunk) : List String :=
  ks.filterMap fun k => k.token.bind Token.tagArgument?

/-- The chunks of an open tag. -/
def openTagChunks (name : String) (arguments : List Chunk) : List Chunk :=
  .openTag name :: (arguments ++ [.tagEnd])

/-! ## Layouts and pages -/

inductive Layout where
  | comment (gap : List Chunk) (text : String)
  | directive (gap : List Chunk) (name : String) (arguments : List Chunk)
  | block (gap : List Chunk) (name : String) (arguments : List Chunk) (inside : List Layout)
      (trailing : List Chunk) (closing : String) (blanks : List Char)

/-- A whole file: its statements and the gap after them. -/
structure Page where
  statements : List Layout
  trailing : List Chunk

namespace Layout

/-- The gap before the statement. -/
def gap : Layout → List Chunk
  | comment gap _ => gap
  | directive gap _ _ => gap
  | block gap _ _ _ _ _ _ => gap

def isDirective : Layout → Bool
  | directive _ _ _ => true
  | _ => false

/-- The gap that comes next, before the first of some statements or after none. -/
def nextGap (trailing : List Chunk) : List Layout → List Chunk
  | [] => trailing
  | l :: _ => l.gap

mutual
/-- The chunks of the statement itself. -/
def own : Layout → List Chunk
  | comment _ text => [.comment text]
  | directive _ name arguments => .word name :: arguments
  | block _ name arguments inside trailing closing blanks =>
    openTagChunks name arguments ++ (ownAll inside ++ (trailing ++ [.closeTag closing blanks]))

/-- The chunks of some statements and of the gaps before them. -/
def ownAll : List Layout → List Chunk
  | [] => []
  | l :: ls => l.gap ++ (l.own ++ ownAll ls)
end

mutual
/-- What the statement says. -/
def shape : Layout → Shape
  | comment _ text => .comment (commentText text)
  | directive _ name arguments => .directive name (gatherArguments false [] arguments)
  | block _ name arguments inside _ _ _ => .block name (tagArguments arguments) (shapes inside)

def shapes : List Layout → List Shape
  | [] => []
  | l :: ls => l.shape :: shapes ls
end

mutual
/-- The tokens of the statement stand where they may. A directive ends with a token, so that
blanks after it belong to the next gap. -/
def Grammatical : Layout → Prop
  | comment gap _ => gap.all Chunk.isGap = true
  | directive gap _ arguments =>
    gap.all Chunk.isGap = true ∧ arguments.all Chunk.isArgument = true ∧
      ∀ k ∈ arguments.getLast?, k.token.isSome = true
  | block gap name arguments inside trailing closing _ =>
    gap.all Chunk.isGap = true ∧ arguments.all Chunk.isTagArgument = true ∧
      GrammaticalAll false trailing inside ∧ Text.sameName closing name = true

/-- The statements are grammatical, and the gap after a directive ends its line. Only at the end
of the file, when `last` is set, a line may be left open. -/
def GrammaticalAll (last : Bool) (trailing : List Chunk) : List Layout → Prop
  | [] => trailing.all Chunk.isGap = true
  | l :: ls =>
    l.Grammatical ∧
      (l.isDirective = true →
        breaksLine (nextGap trailing ls) = true ∨ (last = true ∧ ls = [])) ∧
      GrammaticalAll last trailing ls
end

/-- A comment or directive laid at an offset, with the given text and chunks. -/
def placeLeaf (source : SourceFile) (offset : Nat) (gap : List Chunk) (kind : FragmentKind)
    (text : List Chunk) : Fragment :=
  let start := offset + extent gap
  let stop := start + extent text
  { source, kind, span := ⟨start, stop⟩, leading := ⟨offset, start⟩, header := ⟨start, stop⟩,
    trailing := .emptyAt stop, footer := .emptyAt stop, children := [] }

mutual
/-- The fragment of a layout whose gap starts at an offset. -/
def place (source : SourceFile) (offset : Nat) : Layout → Fragment
  | comment gap text =>
    placeLeaf source offset gap (.comment (commentText text)) [.comment text]
  | directive gap name arguments =>
    placeLeaf source offset gap (.directive name (gatherArguments false [] arguments))
      (.word name :: arguments)
  | block gap name arguments inside trailing closing blanks =>
    let start := offset + extent gap
    let body := start + extent (openTagChunks name arguments)
    let tail := body + extent (ownAll inside)
    let foot := tail + extent trailing
    let stop := foot + extent [.closeTag closing blanks]
    { source, kind := .block name (tagArguments arguments), span := ⟨start, stop⟩,
      leading := ⟨offset, start⟩, header := ⟨start, body⟩, trailing := ⟨tail, foot⟩,
      footer := ⟨foot, stop⟩, children := placeAll source body inside }

/-- The fragments of statements that follow each other from an offset on. -/
def placeAll (source : SourceFile) (offset : Nat) : List Layout → List Fragment
  | [] => []
  | l :: ls => l.place source offset :: placeAll source (offset + (extent l.gap + extent l.own)) ls
end

end Layout

namespace Page

/-- All chunks of the file. -/
def chunks (p : Page) : List Chunk := Layout.ownAll p.statements ++ p.trailing

/-- A page that can be read: its chunks are those of its text, and they are in order. -/
structure Legible (p : Page) : Prop where
  written : Written p.chunks
  grammatical : Layout.GrammaticalAll true p.trailing p.statements

/-- The document of a page. -/
def place (source : SourceFile) (p : Page) : Fragment :=
  { source, kind := .document, span := ⟨0, source.length⟩, leading := .emptyAt 0,
    header := .emptyAt 0, trailing := ⟨extent (Layout.ownAll p.statements), source.length⟩,
    footer := .emptyAt source.length, children := Layout.placeAll source 0 p.statements }

end Page

namespace Layout

/-! ## Appending statements -/

@[simp]
theorem ownAll_nil : ownAll [] = [] := by simp [ownAll]

@[simp]
theorem ownAll_cons (l : Layout) (ls : List Layout) :
    ownAll (l :: ls) = l.gap ++ (l.own ++ ownAll ls) := by
  rw [ownAll]

@[simp]
theorem ownAll_append (as bs : List Layout) : ownAll (as ++ bs) = ownAll as ++ ownAll bs := by
  induction as with
  | nil => simp
  | cons l as ih => simp [ih]

theorem placeAll_append (source : SourceFile) (offset : Nat) (as bs : List Layout) :
    placeAll source offset (as ++ bs) =
      placeAll source offset as ++ placeAll source (offset + extent (ownAll as)) bs := by
  induction as generalizing offset with
  | nil => simp [placeAll]
  | cons l as ih => simp [placeAll, ih, Nat.add_assoc]

theorem placeAll_concat (source : SourceFile) (offset : Nat) (ls : List Layout) (l : Layout) :
    placeAll source offset (ls ++ [l]) =
      placeAll source offset ls ++ [l.place source (offset + extent (ownAll ls))] := by
  simp [placeAll_append, placeAll]

/-- A further statement comes after the gap that ended the statements so far. -/
theorem grammaticalAll_concat {trailing : List Chunk} {ls : List Layout} {l : Layout}
    (hls : GrammaticalAll false l.gap ls) (hl : l.Grammatical)
    (hclosed : l.isDirective = true → breaksLine trailing = true)
    (htrailing : trailing.all Chunk.isGap = true) :
    GrammaticalAll false trailing (ls ++ [l]) := by
  induction ls with
  | nil => exact ⟨hl, fun h => .inl (hclosed h), htrailing⟩
  | cons m ls ih =>
    obtain ⟨hm, hend, hrest⟩ := hls
    refine ⟨hm, fun h => .inl ?_, ih hrest⟩
    rcases hend h with hbreak | ⟨hlast, -⟩
    · cases ls <;> exact hbreak
    · simp at hlast

/-- A longer gap after the statements still ends their last line. -/
theorem GrammaticalAll.append_gap {gap more : List Chunk} {ls : List Layout}
    (h : GrammaticalAll false gap ls) (hmore : more.all Chunk.isGap = true) :
    GrammaticalAll false (gap ++ more) ls := by
  induction ls with
  | nil =>
    have hgap : gap.all Chunk.isGap = true := h
    change (gap ++ more).all Chunk.isGap = true
    rw [List.all_append, hgap, hmore, Bool.and_self]
  | cons m ls ih =>
    obtain ⟨hm, hend, hrest⟩ := h
    refine ⟨hm, fun hdir => .inl ?_, ih hrest⟩
    rcases hend hdir with hbreak | ⟨hlast, -⟩
    · cases ls with
      | nil => simpa [nextGap] using .inl hbreak
      | cons l ls => exact hbreak
    · simp at hlast

/-- Statements whose lines have all ended may end a file. -/
theorem GrammaticalAll.of_closed {trailing : List Chunk} {ls : List Layout}
    (h : GrammaticalAll false trailing ls) : GrammaticalAll true trailing ls := by
  induction ls with
  | nil => exact h
  | cons m ls ih =>
    obtain ⟨hm, hend, hrest⟩ := h
    exact ⟨hm, fun hdir => .inl ((hend hdir).resolve_right (by simp)), ih hrest⟩

/-- The line of the last statement of a file may be left open. -/
theorem GrammaticalAll.concat_last {trailing : List Chunk} {ls : List Layout} {l : Layout}
    (hls : GrammaticalAll false l.gap ls) (hl : l.Grammatical)
    (htrailing : trailing.all Chunk.isGap = true) :
    GrammaticalAll true trailing (ls ++ [l]) := by
  induction ls with
  | nil => exact ⟨hl, fun _ => .inr ⟨rfl, rfl⟩, htrailing⟩
  | cons m ls ih =>
    obtain ⟨hm, hend, hrest⟩ := hls
    refine ⟨hm, fun hdir => .inl ?_, ih hrest⟩
    have hbreak := (hend hdir).resolve_right (by simp)
    cases ls <;> exact hbreak

/-- The gap after grammatical statements is a gap. -/
theorem GrammaticalAll.trailing {last : Bool} {trailing : List Chunk} {ls : List Layout}
    (h : GrammaticalAll last trailing ls) : trailing.all Chunk.isGap = true := by
  induction ls with
  | nil => exact h
  | cons m ls ih => exact ih h.2.2

end Layout

end HttpdConf
