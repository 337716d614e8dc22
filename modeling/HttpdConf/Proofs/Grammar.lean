import HttpdConf.Fragment.Reader
import Mathlib.Data.List.Forall2

/-!
# The grammar of configuration text

A list of lexemes is a configuration file when it can be cut into phrases: line breaks, comments,
directives that go on to the end of their line, and blocks with phrases inside. The reader accepts
just the lists that can be cut this way, there is only one way to cut them, and the document says
what the phrases say.

Between the grammar and the reader stands the transcript, which keeps the phrases of all lexemes so
far. It goes on by one lexeme whenever the reader does, and every transcript is grammatical.

## Main definitions

* `Phrase`, `Phrase.lexemes`: derivations, and the lexemes they derive
* `Phrase.Valid`, `Phrase.Derives`: the rules of the grammar
* `Phrase.kindTrees`: what phrases say
* `Transcript`, `derivation?`: the phrases of the lexemes read so far, and of all lexemes

## Main results

* `derivation?_eq_some_iff`: phrases are found just when they derive the lexemes
* `Transcript.Describes.step`, `concur_ofLexemes`: the reader goes on as the transcript does
* `Fragment.ofLexemes_derives`: the reader accepts just what can be derived, in one way
-/

namespace HttpdConf

/-! ## Derivations -/

/-- A piece of configuration text. The lexemes of a directive after its name are its run; a block
has the lexemes of its open tag, the phrases inside and the name in its close tag. -/
inductive Phrase where
  | lineBreak (span : Span)
  | comment (text : String) (span : Span)
  | directive (name : String) (span : Span) (run : List Lexeme)
  | block (name : String) (span : Span) (arguments : List Lexeme) (tagEnd : Span)
      (inside : List Phrase) (closing : String) (closingSpan : Span)

/-- Whether a token can stand on the line of a directive after its name. -/
def Token.staysOnLine : Token → Bool
  | .newline | .closeTag _ => false
  | _ => true

/-- Whether a token can stand in an open tag after its name. -/
def Token.staysInTag : Token → Bool
  | .word _ | .quoted _ | .less => true
  | _ => false

namespace Phrase

mutual
/-- The lexemes of a phrase. -/
def lexemes : Phrase → List Lexeme
  | lineBreak span => [⟨.newline, span⟩]
  | comment text span => [⟨.comment text, span⟩]
  | directive name span run => ⟨.word name, span⟩ :: run
  | block name span arguments tagEnd inside closing closingSpan =>
    ⟨.openTag name, span⟩ ::
      (arguments ++ ⟨.tagEnd, tagEnd⟩ ::
        (lexemesOfAll inside ++ [⟨.closeTag closing, closingSpan⟩]))

def lexemesOfAll : List Phrase → List Lexeme
  | [] => []
  | p :: rest => p.lexemes ++ lexemesOfAll rest
end

def isDirective : Phrase → Bool
  | directive _ _ _ => true
  | _ => false

mutual
/-- The phrase is made by the rules. -/
def Valid : Phrase → Prop
  | lineBreak _ => True
  | comment _ _ => True
  | directive _ _ run => ∀ x ∈ run, x.token.staysOnLine = true
  | block name _ arguments _ inside closing closingSpan =>
    (∀ x ∈ arguments, x.token.staysInTag = true) ∧
      ValidAll [⟨.closeTag closing, closingSpan⟩] inside ∧ Text.sameName closing name = true

/-- The phrases are made by the rules, before some lexemes. The run of a directive is as long as it
can be: a line break comes next, or nothing. -/
def ValidAll (after : List Lexeme) : List Phrase → Prop
  | [] => True
  | p :: rest =>
    p.Valid ∧
      (p.isDirective = true → ∀ x ∈ (lexemesOfAll rest ++ after).head?, x.token = .newline) ∧
      ValidAll after rest
end

/-- The phrases are a derivation of all lexemes of a file. -/
structure Derives (ps : List Phrase) (xs : List Lexeme) : Prop where
  valid : ValidAll [] ps
  lexemes_eq : lexemesOfAll ps = xs

@[simp]
theorem lexemesOfAll_nil : lexemesOfAll [] = [] := by rw [lexemesOfAll]

@[simp]
theorem lexemesOfAll_cons (p : Phrase) (ps : List Phrase) :
    lexemesOfAll (p :: ps) = p.lexemes ++ lexemesOfAll ps := by
  rw [lexemesOfAll]

@[simp]
theorem lexemesOfAll_append (ps qs : List Phrase) :
    lexemesOfAll (ps ++ qs) = lexemesOfAll ps ++ lexemesOfAll qs := by
  induction ps with
  | nil => simp
  | cons p ps ih => simp [ih]

/-- Phrases may be put together where each part is valid before the lexemes that follow it. -/
theorem validAll_append {after : List Lexeme} {ps qs : List Phrase} :
    ValidAll after (ps ++ qs) ↔ ValidAll (lexemesOfAll qs ++ after) ps ∧ ValidAll after qs := by
  induction ps with
  | nil => simp [ValidAll]
  | cons p ps ih =>
    rw [List.cons_append, ValidAll, ValidAll, ih, lexemesOfAll_append, List.append_assoc]
    constructor
    · rintro ⟨hp, hnext, hps, hqs⟩
      exact ⟨⟨hp, hnext, hps⟩, hqs⟩
    · rintro ⟨⟨hp, hnext, hps⟩, hqs⟩
      exact ⟨hp, hnext, hps, hqs⟩

end Phrase

/-! ## What phrases say -/

/-- The words of a token on the line of a directive. A `#` starts no comment there. -/
def Token.lineWords : Token → List String
  | .comment text => (Text.words text.toList).map String.ofList
  | t => [t.display]

/-- The words of a token, each with whether it goes on with the word before it. Only the first word
of a token can, when the token starts where the one before it stopped. -/
def Lexeme.lineWords (stop : Option Nat) (x : Lexeme) : List (Bool × String) :=
  match x.token.lineWords with
  | [] => []
  | w :: ws => (stop == some x.span.start, w) :: ws.map (false, ·)

/-- The words of the lexemes on a line after a token that stopped at an offset. -/
def runWords (stop : Option Nat) : List Lexeme → List (Bool × String)
  | [] => []
  | x :: rest => x.lineWords stop ++ runWords (some x.span.stop) rest

/-- Put a word before some arguments, or make it one with the first of them. -/
def prependWord (joined : Bool) (w : String) : List String → List String
  | [] => [w]
  | argument :: more => if joined then (w ++ argument) :: more else w :: argument :: more

/-- A word and those that go on with it are one argument. -/
def joinWords : List (Bool × String) → List String
  | [] => []
  | (_, w) :: rest => prependWord (rest.head?.any Prod.fst) w (joinWords rest)

/-- The arguments of a directive. -/
def argumentsOfRun (run : List Lexeme) : List String := joinWords (runWords none run)

/-- The kind of a fragment, and those of the fragments inside. -/
inductive KindTree where
  | node (kind : FragmentKind) (children : List KindTree)

namespace Fragment

mutual
def kindTree : Fragment → KindTree
  | ⟨_, kind, _, _, _, _, _, children⟩ => .node kind (kindTrees children)

def kindTrees : List Fragment → List KindTree
  | [] => []
  | f :: rest => f.kindTree :: kindTrees rest
end

theorem kindTree_eq (f : Fragment) : f.kindTree = .node f.kind (kindTrees f.children) := by
  cases f
  rw [kindTree]

theorem kindTrees_eq_map (fs : List Fragment) : kindTrees fs = fs.map kindTree := by
  induction fs with
  | nil => rw [kindTrees, List.map_nil]
  | cons f fs ih => rw [kindTrees, ih, List.map_cons]

end Fragment

namespace Phrase

mutual
/-- What a phrase says; line breaks say nothing. -/
def kindTree? : Phrase → Option KindTree
  | lineBreak _ => none
  | comment text _ => some (.node (.comment (commentText text)) [])
  | directive name _ run => some (.node (.directive name (argumentsOfRun run)) [])
  | block name _ arguments _ inside _ _ =>
    some (.node (.block name (arguments.map fun x => x.token.display)) (kindTrees inside))

/-- What phrases say, in order. -/
def kindTrees : List Phrase → List KindTree
  | [] => []
  | p :: rest => p.kindTree?.toList ++ kindTrees rest
end

theorem kindTrees_append (ps qs : List Phrase) :
    kindTrees (ps ++ qs) = kindTrees ps ++ kindTrees qs := by
  induction ps with
  | nil => simp [kindTrees]
  | cons p ps ih => simp [kindTrees, ih]

end Phrase

/-! ## Transcripts -/

/-- A block whose close tag has not come yet, with the phrases before it. -/
structure OpenPhrase where
  before : List Phrase
  name : String
  span : Span
  arguments : List Lexeme
  tagEnd : Span

/-- The phrase under way, if any. -/
inductive Underway where
  | nothing
  | directive (name : String) (span : Span) (run : List Lexeme)
  | tag (name : String) (span : Span) (arguments : List Lexeme)

/-- The phrases of the lexemes read so far: the open blocks, innermost first, the finished phrases
of the innermost one, and the phrase under way. -/
structure Transcript where
  opened : List OpenPhrase
  done : List Phrase
  underway : Underway

namespace Transcript

/-- Nothing has been read. -/
def blank : Transcript := ⟨[], [], .nothing⟩

/-- A lexeme between phrases. -/
def stepBetween (t : Transcript) (x : Lexeme) : Option Transcript :=
  match x.token with
  | .newline => some { t with done := t.done ++ [.lineBreak x.span] }
  | .comment text => some { t with done := t.done ++ [.comment text x.span] }
  | .word name => some { t with underway := .directive name x.span [] }
  | .openTag name => some { t with underway := .tag name x.span [] }
  | .closeTag name =>
    match t.opened with
    | [] => none
    | o :: outer =>
      if Text.sameName name o.name then
        some ⟨outer, o.before ++ [.block o.name o.span o.arguments o.tagEnd t.done name x.span],
          .nothing⟩
      else none
  | _ => none

/-- A lexeme on the line of a directive. -/
def stepDirective (t : Transcript) (name : String) (span : Span) (run : List Lexeme)
    (x : Lexeme) : Option Transcript :=
  if x.token.staysOnLine then some { t with underway := .directive name span (run ++ [x]) }
  else if x.token = .newline then
    some ⟨t.opened, t.done ++ [.directive name span run, .lineBreak x.span], .nothing⟩
  else none

/-- A lexeme in an open tag. -/
def stepTag (t : Transcript) (name : String) (span : Span) (arguments : List Lexeme)
    (x : Lexeme) : Option Transcript :=
  if x.token.staysInTag then some { t with underway := .tag name span (arguments ++ [x]) }
  else if x.token = .tagEnd then
    some ⟨⟨t.done, name, span, arguments, x.span⟩ :: t.opened, [], .nothing⟩
  else none

/-- How a transcript goes on with a lexeme, if it can. -/
def step (t : Transcript) (x : Lexeme) : Option Transcript :=
  match t.underway with
  | .nothing => t.stepBetween x
  | .directive name span run => t.stepDirective name span run x
  | .tag name span arguments => t.stepTag name span arguments x

/-- The phrases of a whole file; its end ends a directive. -/
def finish (t : Transcript) : Option (List Phrase) :=
  match t.opened, t.underway with
  | [], .nothing => some t.done
  | [], .directive name span run => some (t.done ++ [.directive name span run])
  | _, _ => none

end Transcript

/-- The phrases of some lexemes, if they are those of a file. -/
def derivation? (xs : List Lexeme) : Option (List Phrase) :=
  (xs.foldlM Transcript.step Transcript.blank).bind Transcript.finish

/-! ## Transcripts are grammatical -/

/-- The lexemes up to the inside of the innermost open block. -/
def openLexemes : List OpenPhrase → List Lexeme
  | [] => []
  | o :: outer =>
    openLexemes outer ++ (Phrase.lexemesOfAll o.before ++
      ⟨.openTag o.name, o.span⟩ :: (o.arguments ++ [⟨.tagEnd, o.tagEnd⟩]))

def Underway.lexemes : Underway → List Lexeme
  | nothing => []
  | directive name span run => ⟨.word name, span⟩ :: run
  | tag name span arguments => ⟨.openTag name, span⟩ :: arguments

/-- The phrase under way keeps the rules so far. -/
def Underway.Valid : Underway → Prop
  | nothing => True
  | directive _ _ run => ∀ x ∈ run, x.token.staysOnLine = true
  | tag _ _ arguments => ∀ x ∈ arguments, x.token.staysInTag = true

namespace Transcript

/-- All lexemes of a transcript. -/
def lexemes (t : Transcript) : List Lexeme :=
  openLexemes t.opened ++ (Phrase.lexemesOfAll t.done ++ t.underway.lexemes)

/-- What is finished is valid whatever comes next, as no directive stands last in it. -/
structure Valid (t : Transcript) : Prop where
  opened : ∀ o ∈ t.opened, (∀ after, Phrase.ValidAll after o.before) ∧
    ∀ x ∈ o.arguments, x.token.staysInTag = true
  done : ∀ after, Phrase.ValidAll after t.done
  underway : t.underway.Valid

variable {t t' : Transcript} {x : Lexeme} {xs : List Lexeme} {ps : List Phrase}

theorem valid_blank : blank.Valid :=
  ⟨by simp [blank], fun _ => by simp [blank, Phrase.ValidAll], trivial⟩

/-- Finished phrases go on with a phrase that is not a directive. -/
theorem validAll_concat {p : Phrase} (hps : ∀ after, Phrase.ValidAll after ps) (hp : p.Valid)
    (hnot : p.isDirective = false) (after : List Lexeme) : Phrase.ValidAll after (ps ++ [p]) :=
  Phrase.validAll_append.2 ⟨hps _, hp, by simp [hnot], trivial⟩

/-- A transcript that goes on with a lexeme keeps all lexemes and the rules. -/
structure Extends (t : Transcript) (x : Lexeme) (t' : Transcript) : Prop where
  lexemes_eq : t'.lexemes = t.lexemes ++ [x]
  valid : t'.Valid

theorem extends_stepBetween (ht : t.Valid) (hnothing : t.underway = .nothing)
    (h : t.stepBetween x = some t') : t.Extends x t' := by
  obtain ⟨opened, done, underway⟩ := t
  obtain rfl : underway = .nothing := hnothing
  obtain ⟨token, span⟩ := x
  obtain ⟨hopened, hdone, -⟩ := ht
  rw [stepBetween.eq_def] at h
  cases token with
  | newline =>
    obtain rfl := Option.some.inj h
    exact ⟨by simp [lexemes, Underway.lexemes, Phrase.lexemes], hopened,
      validAll_concat hdone trivial rfl, trivial⟩
  | comment text =>
    obtain rfl := Option.some.inj h
    exact ⟨by simp [lexemes, Underway.lexemes, Phrase.lexemes], hopened,
      validAll_concat hdone trivial rfl, trivial⟩
  | word name =>
    obtain rfl := Option.some.inj h
    exact ⟨by simp [lexemes, Underway.lexemes], hopened, hdone, by simp [Underway.Valid]⟩
  | openTag name =>
    obtain rfl := Option.some.inj h
    exact ⟨by simp [lexemes, Underway.lexemes], hopened, hdone, by simp [Underway.Valid]⟩
  | closeTag name =>
    cases opened with
    | nil => simp at h
    | cons o outer =>
      simp only [Option.ite_none_right_eq_some] at h
      obtain ⟨hname, h⟩ := h
      obtain rfl := Option.some.inj h
      obtain ⟨hbefore, harguments⟩ := hopened o (List.mem_cons_self ..)
      -- the block that ends is a phrase among those before it
      refine ⟨by simp [lexemes, Underway.lexemes, openLexemes, Phrase.lexemes],
        fun p hp => hopened p (List.mem_cons_of_mem _ hp), validAll_concat hbefore ?_ rfl, trivial⟩
      exact ⟨harguments, hdone _, hname⟩
  | _ => simp at h

theorem extends_stepDirective {name : String} {span : Span} {run : List Lexeme} (ht : t.Valid)
    (hdirective : t.underway = .directive name span run)
    (h : t.stepDirective name span run x = some t') : t.Extends x t' := by
  obtain ⟨opened, done, underway⟩ := t
  obtain rfl : underway = .directive name span run := hdirective
  obtain ⟨hopened, hdone, hrun⟩ := ht
  unfold stepDirective at h
  split at h
  · rename_i hstays
    obtain rfl := Option.some.inj h
    refine ⟨by simp [lexemes, Underway.lexemes], hopened, hdone, fun y hy => ?_⟩
    rcases List.mem_append.1 hy with hy | hy
    · exact hrun y hy
    · rwa [List.mem_singleton.1 hy]
  · split at h
    · rename_i hbreak
      obtain rfl := Option.some.inj h
      have hx : x = ⟨.newline, x.span⟩ := by rw [← hbreak]
      refine ⟨?_, hopened, fun after => ?_, trivial⟩
      · rw [hx]
        simp [lexemes, Underway.lexemes, Phrase.lexemes]
      · -- the line break is what the run of the directive ends before
        refine Phrase.validAll_append.2 ⟨hdone _, hrun, fun _ y hy => ?_, trivial, nofun, trivial⟩
        obtain rfl : (⟨.newline, x.span⟩ : Lexeme) = y := by simpa [Phrase.lexemes] using hy
        rfl
    · simp at h

theorem extends_stepTag {name : String} {span : Span} {arguments : List Lexeme} (ht : t.Valid)
    (htag : t.underway = .tag name span arguments)
    (h : t.stepTag name span arguments x = some t') : t.Extends x t' := by
  obtain ⟨opened, done, underway⟩ := t
  obtain rfl : underway = .tag name span arguments := htag
  obtain ⟨hopened, hdone, harguments⟩ := ht
  unfold stepTag at h
  split at h
  · rename_i hstays
    obtain rfl := Option.some.inj h
    refine ⟨by simp [lexemes, Underway.lexemes], hopened, hdone, fun y hy => ?_⟩
    rcases List.mem_append.1 hy with hy | hy
    · exact harguments y hy
    · rwa [List.mem_singleton.1 hy]
  · split at h
    · rename_i hend
      obtain rfl := Option.some.inj h
      have hx : x = ⟨.tagEnd, x.span⟩ := by rw [← hend]
      refine ⟨?_, fun o ho => ?_, fun _ => trivial, trivial⟩
      · rw [hx]
        simp [lexemes, Underway.lexemes, openLexemes]
      · rcases List.mem_cons.1 ho with rfl | ho
        · exact ⟨hdone, harguments⟩
        · exact hopened o ho
    · simp at h

/-- Every step keeps all lexemes and the rules. -/
theorem extends_step (ht : t.Valid) (h : t.step x = some t') : t.Extends x t' := by
  unfold step at h
  split at h
  · exact extends_stepBetween ht (by assumption) h
  · exact extends_stepDirective ht (by assumption) h
  · exact extends_stepTag ht (by assumption) h

theorem valid_run (ht : t.Valid) (h : xs.foldlM step t = some t') :
    t'.lexemes = t.lexemes ++ xs ∧ t'.Valid := by
  induction xs generalizing t with
  | nil =>
    obtain rfl := Option.some.inj h
    exact ⟨(List.append_nil _).symm, ht⟩
  | cons x xs ih =>
    rw [List.foldlM_cons] at h
    obtain ⟨m, hstep, hrun⟩ := Option.bind_eq_some_iff.1 h
    obtain ⟨hlexemes, hm⟩ := extends_step ht hstep
    obtain ⟨hlexemes', ht'⟩ := ih hm hrun
    exact ⟨by rw [hlexemes', hlexemes, List.append_assoc, List.singleton_append], ht'⟩

/-- A transcript that can be finished is a derivation of its lexemes. -/
theorem derives_of_finish (ht : t.Valid) (h : t.finish = some ps) :
    Phrase.Derives ps t.lexemes := by
  obtain ⟨opened, done, underway⟩ := t
  obtain ⟨-, hdone, hunderway⟩ := ht
  unfold finish at h
  split at h
  · rename_i hopened hnothing
    obtain rfl : opened = [] := hopened
    obtain rfl : underway = .nothing := hnothing
    obtain rfl := Option.some.inj h
    exact ⟨hdone _, by simp [lexemes, openLexemes, Underway.lexemes]⟩
  · rename_i name span run hopened hdirective
    obtain rfl : opened = [] := hopened
    obtain rfl : underway = .directive name span run := hdirective
    obtain rfl := Option.some.inj h
    refine ⟨Phrase.validAll_append.2 ⟨hdone _, hunderway, ?_, trivial⟩, ?_⟩
    · simp
    · simp [lexemes, openLexemes, Underway.lexemes, Phrase.lexemes]
  · simp at h

/-! ## Derivations can be transcribed -/

/-- The transcript with some phrases. A directive at their end is still under way. -/
def ending (opened : List OpenPhrase) (ps : List Phrase) : Transcript :=
  match ps.getLast? with
  | some (.directive name span run) => ⟨opened, ps.dropLast, .directive name span run⟩
  | _ => ⟨opened, ps, .nothing⟩

variable {opened : List OpenPhrase} {done : List Phrase} {after : List Lexeme}

@[simp]
theorem ending_directive (name : String) (span : Span) (run : List Lexeme) :
    ending opened (done ++ [.directive name span run]) =
      ⟨opened, done, .directive name span run⟩ := by
  simp [ending]

theorem ending_of_closed (h : ∀ p ∈ ps.getLast?, p.isDirective = false) :
    ending opened ps = ⟨opened, ps, .nothing⟩ := by
  unfold ending
  split
  · rename_i name span run hlast
    exact absurd (h _ hlast) (by simp [Phrase.isDirective])
  · rfl

theorem finish_ending (ps : List Phrase) : (ending [] ps).finish = some ps := by
  by_cases hclosed : ∀ p ∈ ps.getLast?, p.isDirective = false
  · rw [ending_of_closed hclosed]
    rfl
  · obtain ⟨p, hp, hdirective⟩ : ∃ p ∈ ps.getLast?, p.isDirective = true := by
      simpa using hclosed
    obtain ⟨before, rfl⟩ := List.getLast?_eq_some_iff.1 hp
    cases p with
    | directive name span run =>
      rw [ending_directive]
      rfl
    | _ => simp [Phrase.isDirective] at hdirective

/-- What is read in two parts is read as a whole. -/
theorem run_append {ys : List Lexeme} {m : Transcript} (h : xs.foldlM step t = some m)
    (h' : ys.foldlM step m = some t') : (xs ++ ys).foldlM step t = some t' := by
  rw [List.foldlM_append, h]
  exact h'

theorem run_directive {name : String} {span : Span} {run more : List Lexeme}
    (h : ∀ x ∈ more, x.token.staysOnLine = true) :
    more.foldlM step ⟨opened, done, .directive name span run⟩ =
      some ⟨opened, done, .directive name span (run ++ more)⟩ := by
  induction more generalizing run with
  | nil => simp
  | cons x more ih =>
    have hstep : step ⟨opened, done, .directive name span run⟩ x =
        some ⟨opened, done, .directive name span (run ++ [x])⟩ :=
      if_pos (h x (List.mem_cons_self ..))
    rw [List.foldlM_cons, hstep, Option.bind_eq_bind, Option.bind_some,
      ih fun y hy => h y (List.mem_cons_of_mem _ hy), List.append_assoc, List.singleton_append]

theorem run_tag {name : String} {span : Span} {arguments more : List Lexeme}
    (h : ∀ x ∈ more, x.token.staysInTag = true) :
    more.foldlM step ⟨opened, done, .tag name span arguments⟩ =
      some ⟨opened, done, .tag name span (arguments ++ more)⟩ := by
  induction more generalizing arguments with
  | nil => simp
  | cons x more ih =>
    have hstep : step ⟨opened, done, .tag name span arguments⟩ x =
        some ⟨opened, done, .tag name span (arguments ++ [x])⟩ :=
      if_pos (h x (List.mem_cons_self ..))
    rw [List.foldlM_cons, hstep, Option.bind_eq_bind, Option.bind_some,
      ih fun y hy => h y (List.mem_cons_of_mem _ hy), List.append_assoc, List.singleton_append]

/-- Before anything but a line break, no directive stands last. -/
theorem closed_of_validAll (h : Phrase.ValidAll after ps)
    (hafter : ∃ x ∈ after.head?, x.token ≠ .newline) :
    ∀ p ∈ ps.getLast?, p.isDirective = false := by
  intro p hp
  obtain ⟨before, rfl⟩ := List.getLast?_eq_some_iff.1 hp
  obtain ⟨x, hx, hne⟩ := hafter
  obtain ⟨-, -, hnext, -⟩ := Phrase.validAll_append.1 h
  rw [Bool.eq_false_iff]
  intro hdirective
  exact hne (hnext hdirective x (by simpa using hx))

/-- Only a line break starts with a line break. -/
theorem eq_lineBreak {p : Phrase} (h : ∀ x ∈ p.lexemes.head?, x.token = .newline) :
    ∃ span, p = .lineBreak span := by
  cases p with
  | lineBreak span => exact ⟨span, rfl⟩
  | _ => simp [Phrase.lexemes] at h

mutual
/-- The lexemes of a phrase are transcribed as the phrase. -/
theorem run_phrase (opened : List OpenPhrase) (done : List Phrase) (p : Phrase) (hp : p.Valid) :
    p.lexemes.foldlM step ⟨opened, done, .nothing⟩ = some (ending opened (done ++ [p])) := by
  match p with
  | .lineBreak span =>
    rw [ending_of_closed (by simp [Phrase.isDirective])]
    rfl
  | .comment text span =>
    rw [ending_of_closed (by simp [Phrase.isDirective])]
    rfl
  | .directive name span run =>
    rw [ending_directive, Phrase.lexemes, List.foldlM_cons]
    exact run_directive hp
  | .block name span arguments tagEnd inside closing closingSpan =>
    obtain ⟨harguments, hinside, hname⟩ := hp
    -- the open tag, what is inside, and the close tag, one after the other
    have hopen : (⟨.openTag name, span⟩ :: (arguments ++ [⟨.tagEnd, tagEnd⟩]) : List Lexeme).foldlM
        step ⟨opened, done, .nothing⟩ =
          some (ending (⟨done, name, span, arguments, tagEnd⟩ :: opened) []) :=
      run_append (run_tag harguments) rfl
    have hclosed : ∀ p ∈ inside.getLast?, p.isDirective = false :=
      closed_of_validAll hinside ⟨⟨.closeTag closing, closingSpan⟩, rfl, nofun⟩
    have hrun := run_phrases (⟨done, name, span, arguments, tagEnd⟩ :: opened) [] inside hinside
      (by simp)
    rw [List.nil_append, ending_of_closed hclosed] at hrun
    have hclose : step ⟨⟨done, name, span, arguments, tagEnd⟩ :: opened, inside, .nothing⟩
        ⟨.closeTag closing, closingSpan⟩ = some ⟨opened,
          done ++ [.block name span arguments tagEnd inside closing closingSpan], .nothing⟩ :=
      if_pos hname
    have hclose' : [(⟨.closeTag closing, closingSpan⟩ : Lexeme)].foldlM step
        ⟨⟨done, name, span, arguments, tagEnd⟩ :: opened, inside, .nothing⟩ = some ⟨opened,
          done ++ [.block name span arguments tagEnd inside closing closingSpan], .nothing⟩ := by
      rw [List.foldlM_cons, hclose]
      rfl
    rw [ending_of_closed (by simp [Phrase.isDirective])]
    simpa [Phrase.lexemes] using run_append (run_append hopen hrun) hclose'

/-- Phrases are transcribed one after the other. A directive among them is under way until the line
break that has to come next. -/
theorem run_phrases {after : List Lexeme} (opened : List OpenPhrase) (done ps : List Phrase)
    (hps : Phrase.ValidAll after ps)
    (hnext : ∀ p ∈ done.getLast?, p.isDirective = true →
      ∀ x ∈ (Phrase.lexemesOfAll ps ++ after).head?, x.token = .newline) :
    (Phrase.lexemesOfAll ps).foldlM step (ending opened done) =
      some (ending opened (done ++ ps)) := by
  match ps with
  | [] => simp
  | p :: ps =>
    obtain ⟨hp, hp', hps⟩ := hps
    have hstart : p.lexemes.foldlM step (ending opened done) =
        some (ending opened (done ++ [p])) := by
      by_cases hclosed : ∀ q ∈ done.getLast?, q.isDirective = false
      · rw [ending_of_closed hclosed]
        exact run_phrase opened done p hp
      · -- a directive is under way, so the phrase is the line break after it
        obtain ⟨q, hq, hdirective⟩ : ∃ q ∈ done.getLast?, q.isDirective = true := by
          simpa using hclosed
        obtain ⟨span, rfl⟩ : ∃ span, p = .lineBreak span := by
          refine eq_lineBreak fun x hx => hnext q hq hdirective x ?_
          rw [Phrase.lexemesOfAll_cons, List.append_assoc, List.head?_append]
          simp [Option.mem_def.1 hx]
        obtain ⟨before, rfl⟩ := List.getLast?_eq_some_iff.1 hq
        cases q with
        | directive name start run =>
          rw [ending_directive, ending_of_closed (by simp [Phrase.isDirective]), List.append_assoc]
          rfl
        | _ => simp [Phrase.isDirective] at hdirective
    rw [Phrase.lexemesOfAll_cons, List.foldlM_append, hstart, Option.bind_eq_bind, Option.bind_some,
      run_phrases opened (done ++ [p]) ps hps (by simpa using hp'), List.append_assoc,
      List.singleton_append]
end

end Transcript

/-- Phrases are found just when they derive the lexemes. -/
theorem derivation?_eq_some_iff {xs : List Lexeme} {ps : List Phrase} :
    derivation? xs = some ps ↔ Phrase.Derives ps xs := by
  constructor
  · intro h
    obtain ⟨t, hrun, hfinish⟩ := Option.bind_eq_some_iff.1 h
    obtain ⟨hlexemes, ht⟩ := Transcript.valid_run Transcript.valid_blank hrun
    obtain rfl : t.lexemes = xs := hlexemes
    exact Transcript.derives_of_finish ht hfinish
  · rintro ⟨hvalid, rfl⟩
    have hrun := Transcript.run_phrases [] [] ps hvalid (by simp)
    exact Option.bind_eq_some_iff.2 ⟨_, hrun, Transcript.finish_ending ps⟩

/-! ## Arguments on a line -/

theorem joinWords_ne_nil {ws : List (Bool × String)} (h : ws ≠ []) : joinWords ws ≠ [] := by
  cases ws with
  | nil => exact absurd rfl h
  | cons w ws =>
    rw [joinWords, prependWord.eq_def]
    split
    · simp
    · split <;> simp

theorem extendArguments_false (as ws : List String) : extendArguments false as ws = as ++ ws := rfl

/-- Only the first of some words can go on with the last argument. -/
theorem extendArguments_words (joined : Bool) (as : List String) (w : String) (ws : List String) :
    extendArguments joined as (w :: ws) = extendArguments joined as [w] ++ ws := by
  cases joined with
  | false => simp [extendArguments_false]
  | true => cases hlast : as.getLast? <;> simp [extendArguments, hlast]

theorem extendArguments_cons {joined : Bool} {a b w : String} {as : List String} :
    extendArguments joined (a :: b :: as) [w] = a :: extendArguments joined (b :: as) [w] := by
  cases joined with
  | false => rfl
  | true => simp [extendArguments, List.getLast?_cons]

/-- A word before arguments that go on with another word is put before them all the same. -/
theorem extendArguments_prependWord (before joined : Bool) (v w a : String) (as : List String) :
    extendArguments joined (prependWord before v (a :: as)) [w] =
      prependWord before v (extendArguments joined (a :: as) [w]) := by
  cases as with
  | nil =>
    cases before <;> cases joined <;> simp [prependWord, extendArguments, String.append_assoc]
  | cons b as => cases before <;> simp [prependWord, extendArguments_cons]

/-- A further word goes on with the last argument, or is one more. -/
theorem joinWords_concat (ws : List (Bool × String)) (joined : Bool) (w : String) :
    joinWords (ws ++ [(joined, w)]) = extendArguments joined (joinWords ws) [w] := by
  induction ws with
  | nil => cases joined <;> rfl
  | cons v ws ih =>
    rw [List.cons_append, joinWords, joinWords, ih]
    cases hws : joinWords ws with
    | nil =>
      obtain rfl : ws = [] := by
        by_cases hnil : ws = []
        · exact hnil
        · exact absurd hws (joinWords_ne_nil hnil)
      cases joined <;> simp [prependWord, extendArguments]
    | cons a as =>
      have hhead : (ws ++ [(joined, w)]).head? = ws.head? := by
        cases ws with
        | nil => simp [joinWords] at hws
        | cons u ws => rfl
      rw [hhead, extendArguments_prependWord]

theorem joinWords_append (ws : List (Bool × String)) (more : List String) :
    joinWords (ws ++ more.map (false, ·)) = joinWords ws ++ more := by
  induction more generalizing ws with
  | nil => simp
  | cons w more ih =>
    rw [List.map_cons, ← List.singleton_append, ← List.append_assoc, ih, joinWords_concat,
      extendArguments_false, List.append_assoc, List.singleton_append]

theorem joinWords_lineWords (ws : List (Bool × String)) (stop : Option Nat) (x : Lexeme) :
    joinWords (ws ++ x.lineWords stop) =
      extendArguments (stop == some x.span.start) (joinWords ws) x.token.lineWords := by
  rw [Lexeme.lineWords]
  cases x.token.lineWords with
  | nil => cases stop == some x.span.start <;> simp [extendArguments]
  | cons w more =>
    have happend : ws ++ (stop == some x.span.start, w) :: more.map (false, ·) =
        (ws ++ [(stop == some x.span.start, w)]) ++ more.map (false, ·) := by simp
    rw [extendArguments_words, ← joinWords_concat, ← joinWords_append, ← happend]

theorem runWords_concat (stop : Option Nat) (run : List Lexeme) (x : Lexeme) :
    runWords stop (run ++ [x]) =
      runWords stop run ++ x.lineWords ((run.getLast?.map fun y => y.span.stop).or stop) := by
  induction run generalizing stop with
  | nil => simp [runWords]
  | cons y run ih =>
    rw [List.cons_append, runWords, runWords, ih, List.append_assoc]
    cases hlast : run.getLast? <;> simp [List.getLast?_cons, hlast]

/-- A further token of a directive adds its words to the arguments. -/
theorem argumentsOfRun_concat (run : List Lexeme) (x : Lexeme) :
    argumentsOfRun (run ++ [x]) =
      extendArguments ((run.getLast?.map fun y => y.span.stop) == some x.span.start)
        (argumentsOfRun run) x.token.lineWords := by
  rw [argumentsOfRun, runWords_concat, Option.or_none, joinWords_lineWords]
  rfl

/-! ## The reader as a transcript -/

/-- Both succeed, with results that are related, or both fail. -/
def Concur {α β ε : Type} (R : α → β → Prop) : Option α → Except ε β → Prop
  | some a, .ok b => R a b
  | none, .error _ => True
  | _, _ => False

theorem Concur.bind {α β γ δ ε : Type} {R : α → β → Prop} {S : γ → δ → Prop} {a : Option α}
    {b : Except ε β} {f : α → Option γ} {g : β → Except ε δ} (h : Concur R a b)
    (hfg : ∀ x y, R x y → Concur S (f x) (g y)) : Concur S (a.bind f) (b.bind g) := by
  cases a <;> cases b <;> first | exact h.elim | exact trivial | exact hfg _ _ h

/-- An open block is what a reader keeps of it. -/
structure OpenPhrase.Describes (o : OpenPhrase) (b : OpenBlock) : Prop where
  name : b.name = o.name
  arguments : b.arguments = o.arguments.map fun x => x.token.display
  start : b.header.start = o.span.start
  before : Fragment.kindTrees b.before.reverse = Phrase.kindTrees o.before

/-- A phrase under way is what a reader keeps of it. -/
inductive Underway.Describes : Underway → Pending → Prop
  | nothing : Describes .nothing .nothing
  | directive {name : String} {span : Span} {run : List Lexeme} {d : OpenDirective}
      (hname : d.name = name) (harguments : d.arguments = argumentsOfRun run)
      (hend : d.argumentEnd = run.getLast?.map fun y => y.span.stop) :
      Describes (.directive name span run) (.directive d)
  | tag {name : String} {span : Span} {arguments : List Lexeme} {tag : OpenTag}
      (hname : tag.name = name)
      (harguments : tag.arguments = arguments.map fun x => x.token.display)
      (hstart : tag.start = span.start) : Describes (.tag name span arguments) (.tag tag)

/-- The reader has read what is transcribed. -/
structure Transcript.Describes (t : Transcript) (r : Reader) : Prop where
  opened : List.Forall₂ OpenPhrase.Describes t.opened r.blocks
  done : Fragment.kindTrees r.done.reverse = Phrase.kindTrees t.done
  underway : t.underway.Describes r.pending

theorem Token.argumentWords?_eq (token : Token) :
    token.argumentWords? = if token.staysOnLine then some token.lineWords else none := by
  cases token <;> rfl

theorem Token.tagArgument?_eq (token : Token) :
    token.tagArgument? = if token.staysInTag then some token.display else none := by
  cases token <;> rfl

namespace Transcript.Describes

variable {source : SourceFile} {t : Transcript} {r : Reader} {x : Lexeme}

/-- One more phrase is one more fragment. -/
theorem kindTrees_concat {ps : List Phrase} {fs : List Fragment} {f : Fragment} {p : Phrase}
    (h : Fragment.kindTrees fs.reverse = Phrase.kindTrees ps) (hp : p.kindTree? = some f.kindTree) :
    Fragment.kindTrees (f :: fs).reverse = Phrase.kindTrees (ps ++ [p]) := by
  rw [List.reverse_cons, Fragment.kindTrees_eq_map, List.map_append, ← Fragment.kindTrees_eq_map, h,
    Phrase.kindTrees_append]
  simp [Phrase.kindTrees, hp]

theorem kindTrees_addLeaf {ps : List Phrase} {p : Phrase} {kind : FragmentKind}
    (h : Fragment.kindTrees r.done.reverse = Phrase.kindTrees ps)
    (hp : p.kindTree? = some (.node kind [])) (span : Span) :
    Fragment.kindTrees (r.addLeaf source kind span).done.reverse = Phrase.kindTrees (ps ++ [p]) :=
  kindTrees_concat h (by rw [hp, Fragment.kindTree_eq]; rfl)

theorem kindTrees_lineBreak (ps : List Phrase) (span : Span) :
    Phrase.kindTrees (ps ++ [.lineBreak span]) = Phrase.kindTrees ps := by
  simp [Phrase.kindTrees_append, Phrase.kindTrees, Phrase.kindTree?]

theorem stepBetween (h : t.Describes r) (hnothing : t.underway = .nothing) :
    Concur Describes (t.stepBetween x) (r.stepBetween source x) := by
  obtain ⟨opened, done, underway⟩ := t
  obtain ⟨lastEnd, pending, fragments, blocks⟩ := r
  obtain ⟨hopened, hdone, hunderway⟩ := h
  obtain rfl : underway = .nothing := hnothing
  rw [Transcript.stepBetween, Reader.stepBetween]
  cases x.token with
  | newline => exact ⟨hopened, by rw [kindTrees_lineBreak, hdone], hunderway⟩
  | comment text => exact ⟨hopened, kindTrees_addLeaf hdone rfl x.span, .nothing⟩
  | word name => exact ⟨hopened, hdone, .directive rfl rfl rfl⟩
  | openTag name => exact ⟨hopened, hdone, .tag rfl rfl rfl⟩
  | closeTag name =>
    cases hopened with
    | nil => trivial
    | @cons o b outer blocks hfirst hrest =>
      obtain ⟨hname, harguments, -, hbefore⟩ := hfirst
      simp only [hname]
      by_cases hsame : Text.sameName name o.name = true
      · rw [if_pos hsame, if_pos hsame]
        refine ⟨hrest, kindTrees_concat hbefore ?_, .nothing⟩
        -- the block that ends says what its phrases say
        rw [Phrase.kindTree?, Fragment.kindTree_eq, ← hdone, ← harguments, ← hname]
      · rw [if_neg hsame, if_neg hsame]
        trivial
  | tagEnd => trivial
  | less => trivial
  | quoted text => trivial

theorem stepDirective {name : String} {span : Span} {run : List Lexeme} {d : OpenDirective}
    (h : t.Describes r) (hd : (Underway.directive name span run).Describes (.directive d)) :
    Concur Describes (t.stepDirective name span run x) (r.stepDirective source d x) := by
  obtain ⟨hopened, hdone, -⟩ := h
  rw [Transcript.stepDirective, Reader.stepDirective, Token.argumentWords?_eq]
  cases hd with
  | directive hname harguments hend =>
    by_cases hstays : x.token.staysOnLine = true
    · rw [if_pos hstays, if_pos hstays]
      refine ⟨hopened, hdone, .directive hname ?_ (by simp [OpenDirective.push])⟩
      rw [OpenDirective.push, argumentsOfRun_concat, harguments, hend]
    · rw [if_neg hstays, if_neg hstays]
      by_cases hbreak : x.token = .newline
      · rw [if_pos hbreak, if_pos hbreak]
        refine ⟨hopened, ?_, .nothing⟩
        rw [List.append_cons, kindTrees_lineBreak]
        exact kindTrees_addLeaf hdone (by rw [Phrase.kindTree?, hname, harguments]) d.span
      · rw [if_neg hbreak, if_neg hbreak]
        trivial

theorem stepTag {name : String} {span : Span} {arguments : List Lexeme} {tag : OpenTag}
    (h : t.Describes r) (htag : (Underway.tag name span arguments).Describes (.tag tag)) :
    Concur Describes (t.stepTag name span arguments x) (r.stepTag tag x) := by
  obtain ⟨hopened, hdone, -⟩ := h
  rw [Transcript.stepTag, Reader.stepTag, Token.tagArgument?_eq]
  cases htag with
  | tag hname harguments hstart =>
    by_cases hstays : x.token.staysInTag = true
    · rw [if_pos hstays, if_pos hstays]
      exact ⟨hopened, hdone, .tag hname (by simp [harguments]) hstart⟩
    · rw [if_neg hstays, if_neg hstays]
      by_cases hend : x.token = .tagEnd
      · rw [if_pos hend, if_pos hend]
        exact ⟨.cons ⟨hname, harguments, hstart, hdone⟩ hopened, rfl, .nothing⟩
      · rw [if_neg hend, if_neg hend]
        trivial

/-- The reader goes on as the transcript does. -/
theorem step (h : t.Describes r) : Concur Describes (t.step x) (r.step source x) := by
  obtain ⟨opened, done, underway⟩ := t
  obtain ⟨lastEnd, pending, fragments, blocks⟩ := r
  have hunderway : underway.Describes pending := h.underway
  cases hunderway with
  | nothing => exact h.stepBetween rfl
  | directive => exact h.stepDirective h.underway
  | tag => exact h.stepTag h.underway

theorem run (h : t.Describes r) (xs : List Lexeme) :
    Concur Describes (xs.foldlM Transcript.step t) (xs.foldlM (Reader.step source) r) := by
  induction xs generalizing t r with
  | nil => exact h
  | cons x xs ih => exact h.step.bind fun _ _ h' => ih h'

/-- The reader can finish when the transcript can, and the document says what the phrases say. -/
theorem finish (h : t.Describes r) :
    Concur (fun ps document => Fragment.kindTree document = .node .document (Phrase.kindTrees ps))
      t.finish (r.finish source) := by
  obtain ⟨opened, done, underway⟩ := t
  obtain ⟨lastEnd, pending, fragments, blocks⟩ := r
  obtain ⟨hopened, hdone, hunderway⟩ := h
  cases hunderway with
  | nothing =>
    cases hopened with
    | nil => exact congrArg _ hdone
    | cons hfirst hrest => trivial
  | directive hname harguments hend =>
    cases hopened with
    | nil =>
      refine congrArg _ (kindTrees_addLeaf hdone ?_ _)
      rw [Phrase.kindTree?, hname, harguments]
    | cons hfirst hrest => trivial
  | tag => cases hopened <;> trivial

end Transcript.Describes

/-- Lexemes are read just when they have phrases, and the document says what these say. -/
theorem concur_ofLexemes (source : SourceFile) (xs : List Lexeme) :
    Concur (fun ps document => Fragment.kindTree document = .node .document (Phrase.kindTrees ps))
      (derivation? xs) (Fragment.ofLexemes source xs) := by
  have hstart : Transcript.blank.Describes Reader.start := ⟨.nil, rfl, .nothing⟩
  exact (hstart.run xs).bind fun _ _ h => h.finish

/-- The reader accepts a list of lexemes just when it has a derivation. There is never more than
one, and the document is of the kinds that the derivation says. -/
theorem Fragment.ofLexemes_derives (source : SourceFile) (xs : List Lexeme) :
    ((∃ document, Fragment.ofLexemes source xs = .ok document) ↔ ∃ ps, Phrase.Derives ps xs) ∧
      (∀ ps qs, Phrase.Derives ps xs → Phrase.Derives qs xs → ps = qs) ∧
      ∀ document ps, Fragment.ofLexemes source xs = .ok document → Phrase.Derives ps xs →
        document.kindTree = .node .document (Phrase.kindTrees ps) := by
  have hconcur := concur_ofLexemes source xs
  refine ⟨?_, fun ps qs hps hqs => ?_, fun document ps hread hps => ?_⟩
  · simp only [← derivation?_eq_some_iff]
    cases hps : derivation? xs <;> cases hread : Fragment.ofLexemes source xs <;>
      simp_all [Concur]
  · rw [← derivation?_eq_some_iff] at hps hqs
    exact Option.some.inj (hps.symm.trans hqs)
  · rw [derivation?_eq_some_iff.2 hps, hread] at hconcur
    exact hconcur

/-- Blocks in one another on the same line, a comment on the line of a directive, and a close tag in
other letters. -/
theorem Fragment.ofLexemes_derives_nested :
    ∃ xs document ps, scan "<A x>\nB %>s # c\n<C \"q\" <></c></a>" = .ok xs ∧
      Fragment.ofLexemes ⟨⟨"site.conf"⟩, "<A x>\nB %>s # c\n<C \"q\" <></c></a>"⟩ xs =
        .ok document ∧
      Phrase.Derives ps xs ∧ (∀ qs, Phrase.Derives qs xs → qs = ps) ∧
      document.kindTree = .node .document (Phrase.kindTrees ps) := by
  have hread : ((scan "<A x>\nB %>s # c\n<C \"q\" <></c></a>").toOption.any fun xs =>
      (Fragment.ofLexemes ⟨⟨"site.conf"⟩, "<A x>\nB %>s # c\n<C \"q\" <></c></a>"⟩ xs).isOk) =
      true := by
    decide +kernel
  generalize "<A x>\nB %>s # c\n<C \"q\" <></c></a>" = text at hread ⊢
  cases hscan : scan text with
  | error e => simp [hscan, Except.toOption] at hread
  | ok xs =>
    cases hdocument : Fragment.ofLexemes ⟨⟨"site.conf"⟩, text⟩ xs with
    | error e => simp [hscan, hdocument, Except.toOption, Except.isOk, Except.toBool] at hread
    | ok document =>
      have htheorem := Fragment.ofLexemes_derives ⟨⟨"site.conf"⟩, text⟩ xs
      obtain ⟨ps, hps⟩ := htheorem.1.1 ⟨document, hdocument⟩
      exact ⟨xs, document, ps, rfl, hdocument, hps, fun qs hqs => htheorem.2.1 qs ps hqs hps,
        htheorem.2.2 document ps hdocument hps⟩

end HttpdConf
