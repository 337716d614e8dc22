import HttpdConf.Proofs.Grammar
import HttpdConf.Proofs.Lines

/-!
# Errors are reported as early as they can be

What may follow the lexemes read so far depends only on their stage: the names of the blocks that
are open, and whether a directive or an open tag is under way. Every stage can be ended, by a text
that closes all that is open. So a lexeme the reader fails at is the first one with which no
configuration file goes on, and a text that ends too early is the start of a longer one.

## Main definitions

* `Stage`, `Stage.step`: what the lexemes so far leave open, and how a token goes on with it
* `GoesOn`, `IsStuck`: lexemes that some file starts with, tokens that no file starts with
* `InnermostOpen`, `EndsInTag`: what lexemes leave open, said by the phrases they make
* `EarliestError`: errors at the first place where there has to be one

## Main results

* `Fragment.ofLexemes_isOk_iff`: which lexemes are accepted is decided by their stage
* `goesOn_of_written`: every stage that a text leads to can be ended
* `Fragment.earliestError_of_read`: the reader reports the earliest error
-/

namespace HttpdConf

/-! ## Stages -/

/-- Where among the phrases a token stands. -/
inductive Place where
  | between
  | onLine
  /-- after `<name` -/
  | inTag (name : String)
  deriving DecidableEq

/-- What some lexemes leave open: blocks, named innermost first, and perhaps a phrase. -/
structure Stage where
  opened : List String
  place : Place
  deriving DecidableEq

namespace Stage

/-- Nothing is open. -/
def start : Stage := ⟨[], .between⟩

def stepBetween (opened : List String) : Token → Option Stage
  | .newline | .comment _ => some ⟨opened, .between⟩
  | .word _ => some ⟨opened, .onLine⟩
  | .openTag name => some ⟨opened, .inTag name⟩
  | .closeTag name =>
    match opened with
    | [] => none
    | o :: outer => if Text.sameName name o then some ⟨outer, .between⟩ else none
  | _ => none

def stepOnLine (opened : List String) (token : Token) : Option Stage :=
  if token.staysOnLine then some ⟨opened, .onLine⟩
  else if token = .newline then some ⟨opened, .between⟩ else none

def stepInTag (opened : List String) (name : String) (token : Token) : Option Stage :=
  if token.staysInTag then some ⟨opened, .inTag name⟩
  else if token = .tagEnd then some ⟨name :: opened, .between⟩ else none

/-- How a token goes on with a stage, if it can. -/
def step (s : Stage) (token : Token) : Option Stage :=
  match s.place with
  | .between => stepBetween s.opened token
  | .onLine => stepOnLine s.opened token
  | .inTag name => stepInTag s.opened name token

/-- A file may end here. -/
def IsFinal (s : Stage) : Prop := s.opened = [] ∧ ∀ name, s.place ≠ .inTag name

/-- The names that will have to be closed. -/
def names (s : Stage) : List String :=
  match s.place with
  | .inTag name => name :: s.opened
  | _ => s.opened

end Stage

/-- What is under way, without its lexemes. -/
def Underway.place : Underway → Place
  | nothing => .between
  | directive _ _ _ => .onLine
  | tag name _ _ => .inTag name

/-- What a transcript leaves open. -/
def Transcript.stage (t : Transcript) : Stage := ⟨t.opened.map OpenPhrase.name, t.underway.place⟩

namespace Transcript

variable {t : Transcript} {x : Lexeme}

/-- How a transcript goes on is decided by its stage and the token. -/
theorem map_stage_step (t : Transcript) (x : Lexeme) :
    (t.step x).map stage = t.stage.step x.token := by
  obtain ⟨opened, done, underway⟩ := t
  -- one function of the transcript for each thing that may be under way, as for the stage
  cases underway with
  | nothing =>
    change (stepBetween _ x).map stage = Stage.stepBetween (opened.map OpenPhrase.name) x.token
    rw [stepBetween, Stage.stepBetween.eq_def]
    cases x.token with
    | closeTag name =>
      cases opened with
      | nil => rfl
      | cons o outer =>
        by_cases hsame : Text.sameName name o.name = true
        · simp [hsame]
          rfl
        · simp [hsame]
    | _ => rfl
  | directive name span run =>
    change (stepDirective _ name span run x).map stage =
      Stage.stepOnLine (opened.map OpenPhrase.name) x.token
    rw [stepDirective, Stage.stepOnLine]
    by_cases hstays : x.token.staysOnLine = true
    · rw [if_pos hstays, if_pos hstays]
      rfl
    · by_cases hbreak : x.token = .newline
      · rw [if_neg hstays, if_neg hstays, if_pos hbreak, if_pos hbreak]
        rfl
      · rw [if_neg hstays, if_neg hstays, if_neg hbreak, if_neg hbreak]
        rfl
  | tag name span arguments =>
    change (stepTag _ name span arguments x).map stage =
      Stage.stepInTag (opened.map OpenPhrase.name) name x.token
    rw [stepTag, Stage.stepInTag]
    by_cases hstays : x.token.staysInTag = true
    · rw [if_pos hstays, if_pos hstays]
      rfl
    · by_cases hend : x.token = .tagEnd
      · rw [if_neg hstays, if_neg hstays, if_pos hend, if_pos hend]
        rfl
      · rw [if_neg hstays, if_neg hstays, if_neg hend, if_neg hend]
        rfl

theorem map_stage_run (t : Transcript) (xs : List Lexeme) :
    (xs.foldlM step t).map stage = (xs.map Lexeme.token).foldlM Stage.step t.stage := by
  induction xs generalizing t with
  | nil => rfl
  | cons x xs ih =>
    rw [List.map_cons, List.foldlM_cons, List.foldlM_cons, ← map_stage_step]
    cases t.step x with
    | none => rfl
    | some t' => exact ih t'

theorem isSome_finish_iff (t : Transcript) : t.finish.isSome ↔ t.stage.IsFinal := by
  obtain ⟨opened, done, underway⟩ := t
  cases opened <;> cases underway <;> simp [finish, stage, Stage.IsFinal, Underway.place]

end Transcript

/-- The tokens of a file. -/
def IsAccepted (tokens : List Token) : Prop :=
  ∃ s, tokens.foldlM Stage.step Stage.start = some s ∧ s.IsFinal

/-- Which lexemes are accepted is decided by their tokens. -/
theorem Fragment.ofLexemes_isOk_iff (source : SourceFile) (xs : List Lexeme) :
    (∃ document, Fragment.ofLexemes source xs = .ok document) ↔
      IsAccepted (xs.map Lexeme.token) := by
  -- the reader accepts what has a derivation, and the transcript makes the derivation
  have hderives : (∃ document, Fragment.ofLexemes source xs = .ok document) ↔
      (derivation? xs).isSome := by
    have hconcur := concur_ofLexemes source xs
    cases hps : derivation? xs <;> cases hread : Fragment.ofLexemes source xs <;>
      simp_all [Concur]
  have hrun : (xs.foldlM Transcript.step Transcript.blank).map Transcript.stage =
      (xs.map Lexeme.token).foldlM Stage.step Stage.start := Transcript.map_stage_run _ xs
  rw [hderives, derivation?, IsAccepted, ← hrun]
  cases xs.foldlM Transcript.step Transcript.blank with
  | none => simp
  | some t => simpa using t.isSome_finish_iff

/-! ## Ending a stage -/

namespace Stage

variable {s s' : Stage} {token : Token} {tokens : List Token} {opened : List String}

/-- The tokens that close all blocks. -/
def closeTags (opened : List String) : List Token := opened.map .closeTag

/-- Close tags end the blocks that are open. -/
theorem run_closeTags (opened : List String) :
    (closeTags opened).foldlM step ⟨opened, .between⟩ = some start := by
  induction opened with
  | nil => rfl
  | cons o outer ih =>
    have hstep : step ⟨o :: outer, .between⟩ (.closeTag o) = some ⟨outer, .between⟩ :=
      if_pos (Text.sameName_refl o)
    rw [closeTags, List.map_cons, List.foldlM_cons, hstep]
    exact ih

/-- A comment ends no open tag. -/
theorem eq_of_step_comment {text : String} (h : s.step (.comment text) = some s') :
    s' = s ∧ s.names = s.opened := by
  obtain ⟨opened, place⟩ := s
  cases place with
  | inTag name => simp [step, stepInTag, Token.staysInTag] at h
  | _ => exact ⟨(Option.some.inj h).symm, rfl⟩

/-- A name that has to be closed was opened. -/
theorem mem_names_of_step (h : s.step token = some s') {name : String} (hname : name ∈ s'.names) :
    name ∈ s.names ∨ token = .openTag name := by
  obtain ⟨opened, place⟩ := s
  cases place with
  | between =>
    change stepBetween opened token = some s' at h
    cases token with
    | openTag name' =>
      obtain rfl := Option.some.inj h
      rcases List.mem_cons.1 hname with rfl | hname
      · exact .inr rfl
      · exact .inl hname
    | closeTag name' =>
      cases opened with
      | nil => simp [stepBetween] at h
      | cons o outer =>
        simp only [stepBetween, Option.ite_none_right_eq_some] at h
        obtain rfl := Option.some.inj h.2
        exact .inl (List.mem_cons_of_mem _ hname)
    | newline | comment _ | word _ =>
      obtain rfl := Option.some.inj h
      exact .inl hname
    | tagEnd | less | quoted _ => simp [stepBetween] at h
  | onLine =>
    change stepOnLine opened token = some s' at h
    unfold stepOnLine at h
    split at h
    · obtain rfl := Option.some.inj h
      exact .inl hname
    · split at h
      · obtain rfl := Option.some.inj h
        exact .inl hname
      · simp at h
  | inTag name' =>
    change stepInTag opened name' token = some s' at h
    unfold stepInTag at h
    split at h
    · obtain rfl := Option.some.inj h
      exact .inl hname
    · split at h
      · obtain rfl := Option.some.inj h
        exact .inl hname
      · simp at h

theorem mem_names_of_run (h : tokens.foldlM step s = some s') {name : String}
    (hname : name ∈ s'.names) : name ∈ s.names ∨ .openTag name ∈ tokens := by
  induction tokens generalizing s with
  | nil =>
    obtain rfl := Option.some.inj h
    exact .inl hname
  | cons token tokens ih =>
    rw [List.foldlM_cons] at h
    obtain ⟨m, hstep, hrun⟩ := Option.bind_eq_some_iff.1 h
    rcases ih hrun with hm | htokens
    · exact (mem_names_of_step hstep hm).imp id fun htoken => by simp [htoken]
    · exact .inr (List.mem_cons_of_mem _ htokens)

end Stage

/-! ## Texts that end a stage -/

/-- The tokens of some chunks. -/
def tokensOf (ks : List Chunk) : List Token := ks.filterMap Chunk.token

theorem map_token_lexemesAt (offset : Nat) (ks : List Chunk) :
    (lexemesAt offset ks).map Lexeme.token = tokensOf ks := by
  induction ks generalizing offset with
  | nil => rfl
  | cons k ks ih =>
    rw [lexemesAt, List.map_append, ih]
    cases htoken : k.token <;> simp [Chunk.lexeme?, tokensOf, htoken]

/-- Chunks can be cut wherever their lexemes can. -/
theorem exists_of_lexemesAt_eq_append {offset : Nat} {ks : List Chunk} {before after : List Lexeme}
    (h : lexemesAt offset ks = before ++ after) :
    ∃ pre post, ks = pre ++ post ∧ lexemesAt offset pre = before := by
  -- blanks and joined lines have no lexeme, so the chunks are cut right after the last one that has
  induction ks generalizing offset before with
  | nil => exact ⟨[], [], rfl, (List.append_eq_nil_iff.1 h.symm).1.symm⟩
  | cons k ks ih =>
    cases before with
    | nil => exact ⟨[], k :: ks, rfl, rfl⟩
    | cons x before =>
      rw [lexemesAt] at h
      cases hlexeme : k.lexeme? offset with
      | none =>
        rw [hlexeme, Option.toList_none, List.nil_append] at h
        obtain ⟨pre, post, rfl, hpre⟩ := ih h
        exact ⟨k :: pre, post, rfl, by simp [lexemesAt, hlexeme, hpre]⟩
      | some y =>
        rw [hlexeme, Option.toList_some, List.singleton_append, List.cons_append] at h
        obtain ⟨rfl, hrest⟩ := List.cons.inj h
        obtain ⟨pre, post, rfl, hpre⟩ := ih hrest
        exact ⟨k :: pre, post, rfl, by simp [lexemesAt, hlexeme, hpre]⟩

/-- Chunks that end wherever they stand may follow one another. -/
theorem Written.of_meets {ks : List Chunk}
    (h : ∀ k ∈ ks, k.IsLexical ∧ ∀ y, k.meets y = true) : Written ks := by
  induction ks with
  | nil => exact .nil
  | cons k ks ih =>
    obtain ⟨hlex, hmeets⟩ := h k (List.mem_cons_self ..)
    exact Written.cons_iff.2 ⟨hlex, ih fun x hx => h x (List.mem_cons_of_mem _ hx),
      fun y _ => hmeets y⟩

namespace Stage

variable {s : Stage} {opened : List String}

/-- A line break and all close tags. -/
def closing (opened : List String) : List Chunk :=
  .newline ['\n'] :: opened.map fun name => .closeTag name []

/-- Chunks that end all that is open. -/
def ending (s : Stage) : List Chunk :=
  match s.place with
  | .inTag name => .tagEnd :: closing (name :: s.opened)
  | _ => closing s.opened

theorem run_closing (opened : List String) :
    (tokensOf (closing opened)).foldlM step ⟨opened, .between⟩ = some start := by
  have htokens : tokensOf (closing opened) = .newline :: closeTags opened := by
    simp [tokensOf, closing, closeTags, List.filterMap_map]
  rw [htokens]
  exact run_closeTags opened

theorem run_ending (s : Stage) : (tokensOf s.ending).foldlM step s = some start := by
  obtain ⟨opened, place⟩ := s
  cases place with
  | between => exact run_closing opened
  | onLine => exact run_closing opened
  | inTag name => exact run_closing (name :: opened)

theorem written_closing (h : ∀ name ∈ opened, (Chunk.closeTag name []).IsLexical) :
    Written (closing opened) := by
  refine .of_meets fun k hk => ?_
  rcases List.mem_cons.1 hk with rfl | hk
  · exact ⟨.newline (.inl rfl), fun _ => rfl⟩
  · obtain ⟨name, hname, rfl⟩ := List.mem_map.1 hk
    exact ⟨h name hname, fun _ => rfl⟩

theorem written_ending (h : ∀ name ∈ s.names, (Chunk.closeTag name []).IsLexical) :
    Written s.ending := by
  obtain ⟨opened, place⟩ := s
  cases place with
  | inTag name => exact Written.cons_iff.2 ⟨.tagEnd, written_closing h, fun _ _ => rfl⟩
  | _ => exact written_closing h

theorem newline_mem_ending (s : Stage) : .newline ∈ tokensOf s.ending := by
  obtain ⟨opened, place⟩ := s
  cases place <;> simp [ending, closing, tokensOf]

end Stage

/-- A tag that is opened can be closed. -/
theorem Chunk.IsLexical.isLexical_closeTag {k : Chunk} {name : String} (hk : k.IsLexical)
    (htoken : k.token = some (.openTag name)) : (Chunk.closeTag name []).IsLexical := by
  cases hk with
  | openTag hc hname =>
    obtain rfl := Token.openTag.inj (Option.some.inj htoken)
    exact .closeTag hc hname (by simp)
  | _ => simp at htoken

/-- What a text leaves open was opened in it, so it can be closed. -/
theorem isLexical_closeTag_of_run {ks : List Chunk} {s : Stage} (hks : Written ks)
    (hrun : (tokensOf ks).foldlM Stage.step Stage.start = some s) :
    ∀ name ∈ s.names, (Chunk.closeTag name []).IsLexical := by
  intro name hname
  rcases Stage.mem_names_of_run hrun hname with hstart | hopened
  · exact absurd hstart (by simp [Stage.start, Stage.names])
  · obtain ⟨k, hk, htoken⟩ := List.mem_filterMap.1 hopened
    exact (hks.isLexical k hk).isLexical_closeTag htoken

/-- A chunk that ends wherever it stands and leaves open what is open: a line break after a
comment, a blank after anything else. -/
theorem exists_separator {ks : List Chunk} {s : Stage}
    (hrun : (tokensOf ks).foldlM Stage.step Stage.start = some s) :
    ∃ k : Chunk, k.IsLexical ∧ (∀ x ∈ ks.getLast?, x.meets k = true) ∧ (∀ y, k.meets y = true) ∧
      ∃ s', (tokensOf [k]).foldlM Stage.step s = some s' ∧ s'.names = s.names := by
  by_cases hcomment : ∃ x ∈ ks.getLast?, ∃ text, x.token = some (.comment text)
  · -- a blank would be one more character of the comment
    obtain ⟨x, hx, text, htoken⟩ := hcomment
    obtain ⟨pre, rfl⟩ := List.getLast?_eq_some_iff.1 hx
    have hnames : s.names = s.opened := by
      have htokens : tokensOf (pre ++ [x]) = tokensOf pre ++ [.comment text] := by
        simp [tokensOf, htoken]
      rw [htokens, List.foldlM_append] at hrun
      obtain ⟨m, -, hlast⟩ := Option.bind_eq_some_iff.1 hrun
      obtain ⟨s', hstep, hs⟩ := Option.bind_eq_some_iff.1 hlast
      obtain rfl := Option.some.inj hs
      obtain ⟨rfl, hnames⟩ := Stage.eq_of_step_comment hstep
      exact hnames
    refine ⟨.newline ['\n'], .newline (.inl rfl), fun y hy => ?_, fun _ => rfl,
      ⟨s.opened, .between⟩, ?_, hnames.symm⟩
    · obtain rfl := Option.some.inj (hx.symm.trans hy)
      simp [Chunk.meets, htoken]
    · obtain ⟨opened, place⟩ := s
      cases place with
      | inTag name => exact absurd (congrArg List.length hnames) (by simp [Stage.names])
      | _ => rfl
  · refine ⟨.blank ' ', .blank rfl, fun x hx => ?_, fun _ => rfl, s, rfl, rfl⟩
    refine Chunk.meets_gap (fun text htoken => hcomment ⟨x, hx, text, htoken⟩) ?_ (.blank rfl) rfl
    simp

/-- Lexemes that some file starts with, and goes on after. -/
def GoesOn (xs : List Lexeme) : Prop :=
  ∃ (source : SourceFile) (more : List Lexeme) (document : Fragment),
    more ≠ [] ∧ scan source.text = .ok (xs ++ more) ∧ Fragment.read source = .ok document

/-- Every text that leads to a stage is the start of a file. -/
theorem goesOn_of_written {ks : List Chunk} {s : Stage} (hks : Written ks)
    (hrun : (tokensOf ks).foldlM Stage.step Stage.start = some s) : GoesOn (lexemesAt 0 ks) := by
  obtain ⟨k, hlex, hlast, hmeets, s', hstep, hs'⟩ := exists_separator hrun
  have hwritten : Written (ks ++ k :: s'.ending) := by
    refine Written.append_iff.2 ⟨hks, Written.cons_iff.2 ⟨hlex, ?_, fun y _ => hmeets y⟩, ?_⟩
    · exact Stage.written_ending (hs' ▸ isLexical_closeTag_of_run hks hrun)
    · simpa using hlast
  have haccepted : IsAccepted (tokensOf (ks ++ k :: s'.ending)) := by
    refine ⟨Stage.start, ?_, rfl, nofun⟩
    have happend : tokensOf (ks ++ k :: s'.ending) =
        tokensOf ks ++ (tokensOf [k] ++ tokensOf s'.ending) := by
      simp [tokensOf, ← List.filterMap_append]
    rw [happend, List.foldlM_append, hrun, Option.bind_eq_bind, Option.bind_some,
      List.foldlM_append, hstep, Option.bind_eq_bind, Option.bind_some]
    exact s'.run_ending
  -- the text of the chunks is scanned to the same chunks, so it is a file
  let source : SourceFile := ⟨⟨""⟩, String.ofList (textOf (ks ++ k :: s'.ending))⟩
  have hscan : scan source.text = .ok (lexemesAt 0 (ks ++ k :: s'.ending)) := hwritten.scan_eq
  rw [← map_token_lexemesAt 0] at haccepted
  obtain ⟨document, hread⟩ := (Fragment.ofLexemes_isOk_iff source _).2 haccepted
  refine ⟨source, lexemesAt (0 + extent ks) (k :: s'.ending), document, fun hnil => ?_, ?_, ?_⟩
  · -- the line break of the ending is a lexeme
    have htokens := map_token_lexemesAt (0 + extent ks) (k :: s'.ending)
    rw [hnil, List.map_nil] at htokens
    have hbreak : .newline ∈ tokensOf ([k] ++ s'.ending) := by
      rw [tokensOf, List.filterMap_append]
      exact List.mem_append_right _ s'.newline_mem_ending
    rw [List.singleton_append, ← htokens] at hbreak
    simp at hbreak
  · rw [hscan, lexemesAt_append]
  · rw [Fragment.read, hscan]
    exact hread

/-! ## What lexemes leave open -/

namespace Transcript

variable {t t' : Transcript} {opened : List OpenPhrase} {done ps : List Phrase}

/-- Phrases without a directive at their end are transcribed as they are. -/
theorem run_done (h : ∀ after, Phrase.ValidAll after ps) :
    (Phrase.lexemesOfAll ps).foldlM step ⟨opened, [], .nothing⟩ =
      some ⟨opened, ps, .nothing⟩ := by
  -- before the end of a tag no directive can end, so none is last
  have hclosed : ∀ p ∈ ps.getLast?, p.isDirective = false :=
    closed_of_validAll (h [⟨.tagEnd, .emptyAt 0⟩]) ⟨_, rfl, nofun⟩
  have hrun := run_phrases opened [] ps (h []) (by simp)
  rwa [List.nil_append, ending_of_closed hclosed] at hrun

theorem run_openLexemes (h : ∀ o ∈ opened, (∀ after, Phrase.ValidAll after o.before) ∧
    ∀ x ∈ o.arguments, x.token.staysInTag = true) :
    (openLexemes opened).foldlM step blank = some ⟨opened, [], .nothing⟩ := by
  induction opened with
  | nil => rfl
  | cons o outer ih =>
    obtain ⟨hbefore, harguments⟩ := h o (List.mem_cons_self ..)
    have htag : (⟨.openTag o.name, o.span⟩ :: (o.arguments ++ [⟨.tagEnd, o.tagEnd⟩]) :
        List Lexeme).foldlM step ⟨outer, o.before, .nothing⟩ =
          some ⟨o :: outer, [], .nothing⟩ :=
      run_append (run_tag harguments) rfl
    exact run_append (ih fun o' ho' => h o' (List.mem_cons_of_mem _ ho'))
      (run_append (run_done hbefore) htag)

theorem run_underway {underway : Underway} (h : underway.Valid) :
    underway.lexemes.foldlM step ⟨opened, done, .nothing⟩ = some ⟨opened, done, underway⟩ := by
  cases underway with
  | nothing => rfl
  | directive name span run => exact run_directive h
  | tag name span arguments => exact run_tag h

/-- A transcript that keeps the rules is the one its lexemes are transcribed to. -/
theorem Valid.run_lexemes (h : t.Valid) : t.lexemes.foldlM step blank = some t :=
  run_append (run_openLexemes h.opened) (run_append (run_done h.done) (run_underway h.underway))

theorem Valid.eq_of_lexemes_eq (h : t.Valid) (h' : t'.Valid) (heq : t.lexemes = t'.lexemes) :
    t = t' :=
  Option.some.inj (h.run_lexemes.symm.trans (heq ▸ h'.run_lexemes))

end Transcript

/-- There are phrases for the lexemes, and whatever they are, the innermost block they leave open
has the name and starts at the offset. -/
structure InnermostOpen (xs : List Lexeme) (name : String) (start : Nat) : Prop where
  exists_transcript : ∃ t : Transcript, t.Valid ∧ t.lexemes = xs
  of_valid : ∀ t : Transcript, t.Valid → t.lexemes = xs →
    ∃ o ∈ t.opened.head?, o.name = name ∧ o.span.start = start

/-- There are phrases for the lexemes, and whatever they are, the last of them is an open tag of
that name whose end is missing. -/
structure EndsInTag (xs : List Lexeme) (name : String) : Prop where
  exists_transcript : ∃ t : Transcript, t.Valid ∧ t.lexemes = xs
  of_valid : ∀ t : Transcript, t.Valid → t.lexemes = xs →
    ∃ span arguments, t.underway = .tag name span arguments

namespace Transcript.Valid

variable {t : Transcript}

theorem innermostOpen {o : OpenPhrase} {outer : List OpenPhrase} (ht : t.Valid)
    (h : t.opened = o :: outer) : InnermostOpen t.lexemes o.name o.span.start := by
  refine ⟨⟨t, ht, rfl⟩, fun t' ht' heq => ?_⟩
  obtain rfl := ht'.eq_of_lexemes_eq ht heq
  exact ⟨o, by simp [h], rfl, rfl⟩

theorem endsInTag {name : String} {span : Span} {arguments : List Lexeme} (ht : t.Valid)
    (h : t.underway = .tag name span arguments) : EndsInTag t.lexemes name := by
  refine ⟨⟨t, ht, rfl⟩, fun t' ht' heq => ?_⟩
  obtain rfl := ht'.eq_of_lexemes_eq ht heq
  exact ⟨span, arguments, h⟩

end Transcript.Valid

/-! ## Where the reader fails -/

/-- Tokens that no file starts with, wherever they stand in it. -/
def IsStuck (tokens : List Token) : Prop :=
  ∀ source xs, tokens <+: xs.map Lexeme.token →
    ∀ document, Fragment.ofLexemes source xs ≠ .ok document

theorem isStuck_of_run {tokens : List Token}
    (h : tokens.foldlM Stage.step Stage.start = none) : IsStuck tokens := by
  rintro source xs ⟨more, hmore⟩ document hread
  obtain ⟨s, hrun, -⟩ := (Fragment.ofLexemes_isOk_iff source xs).1 ⟨document, hread⟩
  rw [← hmore, List.foldlM_append, h] at hrun
  simp at hrun

/-- An error at the first place where there has to be one. For a token that cannot stand where it
does, the lexemes before it are those of the start of a file, but with its token no file goes on;
when the text ends too early, all its lexemes are those of the start of a longer one. -/
inductive EarliestError (source : SourceFile) (xs : List Lexeme) : SyntaxError → Prop
  | unexpectedToken {before after : List Lexeme} {x : Lexeme} (expected : Expectation)
      (hxs : xs = before ++ x :: after) (hbefore : GoesOn before)
      (hstuck : IsStuck ((before ++ [x]).map Lexeme.token)) :
      EarliestError source xs (.unexpectedToken x.span.start expected x.token)
  | mismatchedClose {before after : List Lexeme} {x : Lexeme} {expected found : String}
      {start : Nat} (hxs : xs = before ++ x :: after) (hbefore : GoesOn before)
      (hstuck : IsStuck ((before ++ [x]).map Lexeme.token)) (hfound : x.token = .closeTag found)
      (hexpected : InnermostOpen before expected start) :
      EarliestError source xs (.mismatchedClose x.span.start expected found)
  | unclosedBlock {start : Nat} {name : String} (hxs : GoesOn xs)
      (hopen : InnermostOpen xs name start) :
      EarliestError source xs (.unclosedBlock start name)
  | unexpectedEnd {name : String} (hxs : GoesOn xs) (htag : EndsInTag xs name) :
      EarliestError source xs (.unexpectedEnd source.length (.tagEnd name))

namespace Transcript.Describes

variable {source : SourceFile} {t : Transcript} {r : Reader} {x : Lexeme} {e : SyntaxError}

/-- The reader fails at a token that cannot stand here, or at the close tag of another block. -/
theorem error_cases (h : t.Describes r) (herror : r.step source x = .error e) :
    (∃ expected, e = .unexpectedToken x.span.start expected x.token) ∨
      ∃ o outer found, t.opened = o :: outer ∧ x.token = .closeTag found ∧
        e = .mismatchedClose x.span.start o.name found := by
  obtain ⟨opened, done, underway⟩ := t
  obtain ⟨lastEnd, pending, fragments, blocks⟩ := r
  obtain ⟨hopened, -, -⟩ := h
  cases pending with
  | nothing =>
    change Reader.stepBetween source _ x = .error e at herror
    rw [Reader.stepBetween] at herror
    cases htoken : x.token with
    | closeTag name =>
      rw [htoken] at herror
      cases hopened with
      | nil => exact .inl ⟨.statement, (Except.error.inj herror).symm⟩
      | @cons o b outer blocks hfirst hrest =>
        simp only [hfirst.name] at herror
        split at herror
        · simp at herror
        · exact .inr ⟨o, outer, name, rfl, rfl, (Except.error.inj herror).symm⟩
    | newline | comment _ | word _ | openTag _ => simp [htoken] at herror
    | tagEnd | less | quoted _ =>
      rw [htoken] at herror
      exact .inl ⟨.statement, (Except.error.inj herror).symm⟩
  | directive d =>
    change Reader.stepDirective source _ d x = .error e at herror
    unfold Reader.stepDirective at herror
    split at herror
    · simp at herror
    · split at herror
      · simp at herror
      · exact .inl ⟨.argument, (Except.error.inj herror).symm⟩
  | tag tag =>
    change Reader.stepTag _ tag x = .error e at herror
    unfold Reader.stepTag at herror
    split at herror
    · simp at herror
    · split at herror
      · simp at herror
      · exact .inl ⟨.tagEnd tag.name, (Except.error.inj herror).symm⟩

/-- At the end of the text the reader fails in an open tag or in a block. -/
theorem finish_error_cases (h : t.Describes r) (herror : r.finish source = .error e) :
    (∃ name span arguments, t.underway = .tag name span arguments ∧
        e = .unexpectedEnd source.length (.tagEnd name)) ∨
      ∃ o outer, t.opened = o :: outer ∧ e = .unclosedBlock o.span.start o.name := by
  obtain ⟨opened, done, underway⟩ := t
  obtain ⟨lastEnd, pending, fragments, blocks⟩ := r
  obtain ⟨hopened, -, hunderway⟩ := h
  cases hunderway with
  | tag hname =>
    refine .inl ⟨_, _, _, rfl, ?_⟩
    rw [← hname]
    exact (Except.error.inj herror).symm
  | _ =>
    cases hopened with
    | nil => simp [Reader.finish, Reader.endLine, Reader.addLeaf] at herror
    | cons hfirst hrest =>
      refine .inr ⟨_, _, rfl, ?_⟩
      rw [← hfirst.name, ← hfirst.start]
      exact (Except.error.inj herror).symm

/-- What stops the reader stops the transcript. -/
theorem step_eq_none (h : t.Describes r) (herror : r.step source x = .error e) :
    t.step x = none := by
  have hconcur : Concur Describes (t.step x) (r.step source x) := h.step
  rw [herror] at hconcur
  cases hstep : t.step x with
  | none => rfl
  | some t' =>
    rw [hstep] at hconcur
    exact hconcur.elim

end Transcript.Describes

/-- What is read can be transcribed. -/
theorem exists_transcript_of_run {source : SourceFile} {xs : List Lexeme} {r : Reader}
    (h : xs.foldlM (Reader.step source) Reader.start = .ok r) :
    ∃ t, xs.foldlM Transcript.step Transcript.blank = some t ∧ t.Describes r ∧ t.lexemes = xs ∧
      t.Valid := by
  have hstart : Transcript.blank.Describes Reader.start := ⟨.nil, rfl, .nothing⟩
  have hconcur : Concur Transcript.Describes (xs.foldlM Transcript.step Transcript.blank)
      (xs.foldlM (Reader.step source) Reader.start) := hstart.run xs
  rw [h] at hconcur
  cases hrun : xs.foldlM Transcript.step Transcript.blank with
  | none =>
    rw [hrun] at hconcur
    exact hconcur.elim
  | some t =>
    rw [hrun] at hconcur
    obtain ⟨hlexemes, hvalid⟩ := Transcript.valid_run Transcript.valid_blank hrun
    exact ⟨t, rfl, hconcur, hlexemes, hvalid⟩

/-- A run fails at a first element. -/
theorem exists_of_foldlM_eq_error {α β ε : Type} {f : β → α → Except ε β} {b : β} {xs : List α}
    {e : ε} (h : xs.foldlM f b = .error e) :
    ∃ before x after b', xs = before ++ x :: after ∧ before.foldlM f b = .ok b' ∧
      f b' x = .error e := by
  induction xs generalizing b with
  | nil => simp [pure, Except.pure] at h
  | cons x xs ih =>
    rw [List.foldlM_cons] at h
    cases hx : f b x with
    | error e' =>
      rw [hx] at h
      obtain rfl := Except.error.inj h
      exact ⟨[], x, xs, b, rfl, rfl, hx⟩
    | ok m =>
      rw [hx] at h
      obtain ⟨before, y, after, b', rfl, hbefore, hy⟩ := ih h
      refine ⟨x :: before, y, after, b', rfl, ?_, hy⟩
      rw [List.foldlM_cons, hx]
      exact hbefore

/-- Lexemes of the start of a text that the reader gets over are the start of a file. -/
theorem goesOn_of_run {ks : List Chunk} {before after : List Lexeme} {t : Transcript}
    (hks : Written ks) (hbefore : lexemesAt 0 ks = before ++ after)
    (hrun : before.foldlM Transcript.step Transcript.blank = some t) : GoesOn before := by
  obtain ⟨pre, post, rfl, rfl⟩ := exists_of_lexemesAt_eq_append hbefore
  have hstage := Transcript.map_stage_run Transcript.blank (lexemesAt 0 pre)
  rw [hrun, map_token_lexemesAt] at hstage
  exact goesOn_of_written (Written.append_iff.1 hks).1 hstage.symm

/-- A lexeme that stops the transcript is one with which no file goes on. -/
theorem isStuck_of_step {before : List Lexeme} {x : Lexeme} {t : Transcript}
    (hrun : before.foldlM Transcript.step Transcript.blank = some t) (hnone : t.step x = none) :
    IsStuck ((before ++ [x]).map Lexeme.token) := by
  have hstage := Transcript.map_stage_run Transcript.blank (before ++ [x])
  rw [List.foldlM_append, hrun, Option.bind_eq_bind, Option.bind_some, List.foldlM_cons,
    hnone] at hstage
  exact isStuck_of_run hstage.symm

/-- The reader reports the earliest error: every text that can be cut into lexemes but is not a
configuration file fails at the first token that cannot stand where it does, or at its end if there
is none. The message shows the token. -/
theorem Fragment.earliestError_of_read {source : SourceFile} {xs : List Lexeme} {e : SyntaxError}
    (hscan : scan source.text = .ok xs) (hread : Fragment.read source = .error e) :
    EarliestError source xs e ∧
      ∀ position expected found, e = .unexpectedToken position expected found →
        ∃ before, e.message = before ++ ", found " ++ found.display := by
  refine ⟨?_, fun position expected found he => ⟨_, congrArg SyntaxError.message he⟩⟩
  obtain ⟨ks, hks, -, hlexemes⟩ := scanFrom_eq_ok_iff.1 hscan
  rw [Fragment.read, hscan] at hread
  -- the reader fails at a lexeme or after the last one
  cases hfold : xs.foldlM (Reader.step source) Reader.start with
  | error e' =>
    obtain rfl : e' = e := by simpa [Fragment.ofLexemes, hfold, bind, Except.bind] using hread
    obtain ⟨before, x, after, r, rfl, hbefore, herror⟩ := exists_of_foldlM_eq_error hfold
    obtain ⟨t, hrun, hdescribes, rfl, hvalid⟩ := exists_transcript_of_run hbefore
    have hgoes : GoesOn t.lexemes := goesOn_of_run hks hlexemes hrun
    have hstuck : IsStuck ((t.lexemes ++ [x]).map Lexeme.token) :=
      isStuck_of_step hrun (hdescribes.step_eq_none herror)
    rcases hdescribes.error_cases herror with ⟨expected, rfl⟩ | ⟨o, outer, found, ho, hx, rfl⟩
    · exact .unexpectedToken expected rfl hgoes hstuck
    · exact .mismatchedClose rfl hgoes hstuck hx (hvalid.innermostOpen ho)
  | ok r =>
    have hfinish : r.finish source = .error e := by
      simpa [Fragment.ofLexemes, hfold, bind, Except.bind] using hread
    obtain ⟨t, hrun, hdescribes, rfl, hvalid⟩ := exists_transcript_of_run hfold
    have hgoes : GoesOn t.lexemes :=
      goesOn_of_run hks (hlexemes.trans (List.append_nil _).symm) hrun
    rcases hdescribes.finish_error_cases hfinish with ⟨name, span, arguments, htag, rfl⟩ |
      ⟨o, outer, ho, rfl⟩
    · exact .unexpectedEnd hgoes (hvalid.endsInTag htag)
    · exact .unclosedBlock hgoes (hvalid.innermostOpen ho)

/-- The close tag of an outer block fails where the inner one is open, after the start of a file. -/
theorem Fragment.earliestError_of_read_nested :
    ∃ xs, scan "<A>\n<B x>\nC d\n</A>\n" = .ok xs ∧
      Fragment.read ⟨⟨"site.conf"⟩, "<A>\n<B x>\nC d\n</A>\n"⟩ =
        .error (.mismatchedClose 14 "B" "A") ∧
      EarliestError ⟨⟨"site.conf"⟩, "<A>\n<B x>\nC d\n</A>\n"⟩ xs
        (.mismatchedClose 14 "B" "A") := by
  have hfails : (match Fragment.read ⟨⟨"site.conf"⟩, "<A>\n<B x>\nC d\n</A>\n"⟩ with
      | .ok _ => false
      | .error e => e == .mismatchedClose 14 "B" "A") = true := by
    decide +kernel
  have hscans : (scan "<A>\n<B x>\nC d\n</A>\n").isOk = true := by decide +kernel
  generalize "<A>\n<B x>\nC d\n</A>\n" = text at hfails hscans ⊢
  cases hscan : scan text with
  | error e => simp [hscan, Except.isOk, Except.toBool] at hscans
  | ok xs =>
    cases hread : Fragment.read ⟨⟨"site.conf"⟩, text⟩ with
    | ok document => simp [hread] at hfails
    | error e =>
      obtain rfl : e = .mismatchedClose 14 "B" "A" := by simpa [hread] using hfails
      exact ⟨xs, rfl, rfl, (Fragment.earliestError_of_read hscan hread).1⟩

end HttpdConf
