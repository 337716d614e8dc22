import HttpdConf.Proofs.Layout

/-!
# Reading is laying out

A text is a configuration file exactly when it is the text of a legible page, and then its
document is that page laid out from the first byte on. This describes the reader completely where
it succeeds: what fragments there are, what they say, and every one of their spans.

Between the two stands the draft, a page in the middle of which the reader is. A draft goes on by
one chunk at a time, without any offsets, and the reader's state is its image: the reader steps on
exactly when the draft does. What remains is about drafts alone. A grammatical page can be drafted
chunk by chunk, and whatever is drafted is grammatical.

## Main definitions

* `Draft`, `Draft.Step`: an unfinished page, and how it goes on
* `Draft.reader`: the reader's state in the middle of a draft
* `Draft.Sound`: what is grammatical so far

## Main results

* `Draft.foldlM_step_reader_iff`: the reader steps on as its draft does
* `Draft.Runs.sound`, `Draft.runs_all`: drafts are grammatical, grammatical pages can be drafted
* `Fragment.read_eq_ok_iff`: reading succeeds exactly on the texts of legible pages
-/

namespace HttpdConf

/-! ## Drafts -/

/-- A block whose close tag has not been written yet, with the statements before it. -/
structure OpenLayout where
  before : List Layout
  gap : List Chunk
  name : String
  arguments : List Chunk

/-- What stands after the finished statements of a draft. -/
inductive Tail where
  | gap (gap : List Chunk)
  /-- a directive, and the blanks after its last token -/
  | directive (gap : List Chunk) (name : String) (arguments blanks : List Chunk)
  | tag (gap : List Chunk) (name : String) (arguments : List Chunk)

/-- A page that is not finished: the open blocks, innermost first, the finished statements of the
innermost one, and what stands after them. -/
structure Draft where
  opened : List OpenLayout
  done : List Layout
  tail : Tail

/-- The chunks up to the inside of the innermost open block. -/
def openChunks : List OpenLayout → List Chunk
  | [] => []
  | o :: outer =>
    openChunks outer ++ (Layout.ownAll o.before ++ (o.gap ++ openTagChunks o.name o.arguments))

def Tail.chunks : Tail → List Chunk
  | gap ks => ks
  | directive ks name arguments blanks => ks ++ (.word name :: (arguments ++ blanks))
  | tag ks name arguments => ks ++ (.openTag name :: arguments)

/-- The gap that the rest of the draft starts with. -/
def Tail.leading : Tail → List Chunk
  | gap ks => ks
  | directive ks _ _ _ => ks
  | tag ks _ _ => ks

/-- The statement under way is grammatical so far. -/
def Tail.Sound : Tail → Prop
  | gap _ => True
  | directive _ _ arguments blanks =>
    arguments.all Chunk.isArgument = true ∧ (∀ k ∈ arguments.getLast?, k.token.isSome = true) ∧
      ∀ k ∈ blanks, k.token = none
  | tag _ _ arguments => arguments.all Chunk.isTagArgument = true

/-- The directive that is being read, from the offset of its name on. -/
def openDirective (start : Nat) (name : String) (arguments : List Chunk) : OpenDirective :=
  let stop := start + extent (.word name :: arguments)
  ⟨name, gatherArguments false [] arguments, ⟨start, stop⟩,
    if arguments.isEmpty then none else some stop⟩

/-- The statement under way, after statements up to an offset. -/
def Tail.pending (offset : Nat) : Tail → Pending
  | gap _ => .nothing
  | directive ks name arguments _ => .directive (openDirective (offset + extent ks) name arguments)
  | tag ks name arguments => .tag ⟨name, tagArguments arguments, offset + extent ks⟩

/-- The open blocks, as the reader keeps them. -/
def openBlocks (source : SourceFile) : List OpenLayout → List OpenBlock
  | [] => []
  | o :: outer =>
    let body := extent (openChunks outer)
    let stop := body + extent (Layout.ownAll o.before)
    let start := stop + extent o.gap
    ⟨o.name, tagArguments o.arguments, ⟨stop, start⟩,
      ⟨start, start + extent (openTagChunks o.name o.arguments)⟩,
      (Layout.placeAll source body o.before).reverse⟩ :: openBlocks source outer

namespace Draft

/-- Nothing is written. -/
def blank : Draft := ⟨[], [], .gap []⟩

/-- All chunks of the draft. -/
def chunks (d : Draft) : List Chunk :=
  openChunks d.opened ++ (Layout.ownAll d.done ++ d.tail.chunks)

/-- How a draft goes on with a chunk. -/
inductive Step : Draft → Chunk → Draft → Prop
  | gap {opened done gap k} (hk : k.isGap = true) :
      Step ⟨opened, done, .gap gap⟩ k ⟨opened, done, .gap (gap ++ [k])⟩
  | comment {opened done gap text} :
      Step ⟨opened, done, .gap gap⟩ (.comment text) ⟨opened, done ++ [.comment gap text], .gap []⟩
  | word {opened done gap name} :
      Step ⟨opened, done, .gap gap⟩ (.word name) ⟨opened, done, .directive gap name [] []⟩
  | openTag {opened done gap name} :
      Step ⟨opened, done, .gap gap⟩ (.openTag name) ⟨opened, done, .tag gap name []⟩
  | closeTag {o outer done gap closing inner} (hname : Text.sameName closing o.name = true) :
      Step ⟨o :: outer, done, .gap gap⟩ (.closeTag closing inner)
        ⟨outer, o.before ++ [.block o.gap o.name o.arguments done gap closing inner], .gap []⟩
  | blank {opened done gap name arguments blanks k} (hk : k.token = none) :
      Step ⟨opened, done, .directive gap name arguments blanks⟩ k
        ⟨opened, done, .directive gap name arguments (blanks ++ [k])⟩
  | argument {opened done gap name arguments blanks k words}
      (hk : k.token.bind Token.argumentWords? = some words) :
      Step ⟨opened, done, .directive gap name arguments blanks⟩ k
        ⟨opened, done, .directive gap name (arguments ++ (blanks ++ [k])) []⟩
  | endLine {opened done gap name arguments blanks k} (hk : k.token = some .newline) :
      Step ⟨opened, done, .directive gap name arguments blanks⟩ k
        ⟨opened, done ++ [.directive gap name arguments], .gap (blanks ++ [k])⟩
  | tagArgument {opened done gap name arguments k} (hk : k.isTagArgument = true) :
      Step ⟨opened, done, .tag gap name arguments⟩ k
        ⟨opened, done, .tag gap name (arguments ++ [k])⟩
  | tagEnd {opened done gap name arguments} :
      Step ⟨opened, done, .tag gap name arguments⟩ .tagEnd
        ⟨⟨done, gap, name, arguments⟩ :: opened, [], .gap []⟩

/-- A draft goes on chunk by chunk. -/
def Runs (d : Draft) : List Chunk → Draft → Prop
  | [], d' => d = d'
  | k :: ks, d' => ∃ m, d.Step k m ∧ Runs m ks d'

variable {opened outer : List OpenLayout} {o : OpenLayout} {done ls : List Layout} {l : Layout}
  {gap trailing arguments blanks ks more : List Chunk} {name closing text : String}
  {inner : List Char} {k : Chunk} {d d' : Draft} {last : Bool}

theorem Runs.trans {m : Draft} (h : d.Runs ks m) (h' : m.Runs more d') :
    d.Runs (ks ++ more) d' := by
  induction ks generalizing d with
  | nil =>
    obtain rfl : d = m := h
    exact h'
  | cons k ks ih =>
    obtain ⟨n, hstep, hruns⟩ := h
    exact ⟨n, hstep, ih hruns⟩

theorem Step.runs (h : d.Step k d') : d.Runs [k] d' := ⟨d', h, rfl⟩

/-- A draft goes on by the chunk that is added. -/
theorem Step.chunks_eq (h : d.Step k d') : d'.chunks = d.chunks ++ [k] := by
  cases h <;>
    simp [chunks, Tail.chunks, openChunks, openTagChunks, Layout.own, Layout.gap]

theorem Runs.chunks_eq (h : d.Runs ks d') : d'.chunks = d.chunks ++ ks := by
  induction ks generalizing d with
  | nil =>
    obtain rfl : d = d' := h
    simp
  | cons k ks ih =>
    obtain ⟨m, hstep, hruns⟩ := h
    rw [ih hruns, hstep.chunks_eq, List.append_assoc, List.singleton_append]

/-! ## Drafts are grammatical -/

/-- What is written so far is grammatical. -/
structure Sound (d : Draft) : Prop where
  opened : ∀ o ∈ d.opened,
    Layout.GrammaticalAll false o.gap o.before ∧ o.arguments.all Chunk.isTagArgument = true
  done : Layout.GrammaticalAll false d.tail.leading d.done
  tail : d.tail.Sound

theorem blank_sound : blank.Sound := ⟨by simp [blank], rfl, trivial⟩

theorem all_isGap_of_blanks (h : ∀ k ∈ blanks, k.token = none) :
    blanks.all Chunk.isGap = true := by
  rw [List.all_eq_true]
  intro k hk
  simp [Chunk.isGap, h k hk]

theorem Step.sound (h : d.Step k d') (hd : d.Sound) : d'.Sound := by
  obtain ⟨hopened, hdone, htail⟩ := hd
  cases h with
  | gap hk =>
    refine ⟨hopened, Layout.GrammaticalAll.append_gap hdone ?_, trivial⟩
    simpa using hk
  | comment =>
    exact ⟨hopened, Layout.grammaticalAll_concat hdone hdone.trailing nofun rfl, trivial⟩
  | word => exact ⟨hopened, hdone, by simp [Tail.Sound]⟩
  | openTag => exact ⟨hopened, hdone, rfl⟩
  -- the block that ends becomes a statement among those before it
  | closeTag hname =>
    obtain ⟨hbefore, harguments⟩ := hopened _ (List.mem_cons_self ..)
    refine ⟨fun o ho => hopened o (by simp [ho]), ?_, trivial⟩
    exact Layout.grammaticalAll_concat hbefore ⟨hbefore.trailing, harguments, hdone, hname⟩ nofun
      rfl
  | blank hk =>
    obtain ⟨harguments, hlast, hblanks⟩ := htail
    refine ⟨hopened, hdone, harguments, hlast, fun x hx => ?_⟩
    rcases List.mem_append.1 hx with hx | hx
    · exact hblanks x hx
    · rw [List.mem_singleton.1 hx, hk]
  | @argument _ _ _ _ arguments blanks k words hk =>
    -- blanks between two tokens of the directive turn out to be part of it
    obtain ⟨harguments, -, hblanks⟩ := htail
    obtain ⟨t, ht, hwords⟩ := Option.bind_eq_some_iff.1 hk
    have hblanks' : ∀ x ∈ blanks, x.isArgument = true := by
      intro x hx
      simp [Chunk.isArgument, hblanks x hx]
    have hk' : k.isArgument = true := by simp [Chunk.isArgument, ht, hwords]
    refine ⟨hopened, hdone, ?_, by simp [ht], by simp⟩
    simpa [hk'] using ⟨by simpa using harguments, hblanks'⟩
  | @endLine _ _ gap name arguments blanks k hk =>
    obtain ⟨harguments, hlast, hblanks⟩ := htail
    refine ⟨hopened, ?_, trivial⟩
    -- the line break is in the gap that comes next, and ends the line of the directive
    refine Layout.grammaticalAll_concat hdone ⟨hdone.trailing, harguments, hlast⟩ (fun _ => ?_) ?_
    · simp [Tail.leading, breaksLine, hk]
    · have hbreak : k.isGap = true := by simp [Chunk.isGap, hk]
      simp only [Tail.leading, List.all_append, all_isGap_of_blanks hblanks, Bool.true_and]
      simpa using hbreak
  | tagArgument hk =>
    have harguments : List.all _ Chunk.isTagArgument = true := htail
    exact ⟨hopened, hdone, by simp [Tail.Sound, harguments, hk]⟩
  | tagEnd =>
    refine ⟨fun o ho => ?_, rfl, trivial⟩
    rcases List.mem_cons.1 ho with rfl | ho
    · exact ⟨hdone, htail⟩
    · exact hopened o ho

theorem Runs.sound (h : d.Runs ks d') (hd : d.Sound) : d'.Sound := by
  induction ks generalizing d with
  | nil =>
    obtain rfl : d = d' := h
    exact hd
  | cons k ks ih =>
    obtain ⟨m, hstep, hruns⟩ := h
    exact ih hruns (hstep.sound hd)

/-! ## The reader in the middle of a draft -/

/-- The reader's state in the middle of a draft. -/
def reader (source : SourceFile) (d : Draft) : Reader :=
  let body := extent (openChunks d.opened)
  let stop := body + extent (Layout.ownAll d.done)
  { lastEnd := stop
    pending := d.tail.pending stop
    done := (Layout.placeAll source body d.done).reverse
    blocks := openBlocks source d.opened }

/-- The last token of a directive touches what follows exactly when no blanks come after it. -/
theorem argumentEnd_openDirective (name : String) (start : Nat)
    (harguments : arguments.all Chunk.isArgument = true)
    (hlast : ∀ k ∈ arguments.getLast?, k.token.isSome = true)
    (hblanks : ∀ k ∈ blanks, k.token = none) (hlex : ∀ k ∈ blanks, k.IsLexical) :
    ((openDirective start name arguments).argumentEnd ==
      some (start + extent (.word name :: (arguments ++ blanks)))) =
      goesOn false (arguments ++ blanks) := by
  rcases blanks.eq_nil_or_concat with rfl | ⟨others, b, rfl⟩
  · -- without blanks, the last argument ends where the next token starts
    rw [List.append_nil]
    rcases arguments.eq_nil_or_concat with rfl | ⟨before, a, rfl⟩
    · simp [openDirective, goesOn]
    · obtain ⟨t, ht⟩ := Option.isSome_iff_exists.1 (hlast a (by simp))
      have ha : a.isArgument = true := List.all_eq_true.1 harguments a (by simp)
      have hwords : (Token.argumentWords? t).isSome = true := by
        simpa [Chunk.isArgument, ht] using ha
      simp [openDirective, goesOn, ht, hwords]
  · -- blanks have a length, so the next token starts after the end of the last argument
    have hb : b.token = none := hblanks b (by simp)
    have hpos := extent_pos hlex (by simp)
    have hend : goesOn false (arguments ++ (others ++ [b])) = false := by
      simp [goesOn, ← List.append_assoc, hb]
    rw [List.concat_eq_append] at hpos ⊢
    rw [hend, beq_eq_false_iff_ne]
    intro heq
    simp only [openDirective, List.isEmpty_iff] at heq
    split at heq
    · simp at heq
    · rw [Option.some.injEq, ← List.cons_append, extent_append] at heq
      omega

/-- A further token of a directive goes on with the last argument when it touches it. -/
theorem push_openDirective (name : String) (start : Nat) {words : List String}
    (harguments : arguments.all Chunk.isArgument = true)
    (hlast : ∀ k ∈ arguments.getLast?, k.token.isSome = true)
    (hblanks : ∀ k ∈ blanks, k.token = none) (hlex : ∀ k ∈ blanks, k.IsLexical)
    (hk : k.token.bind Token.argumentWords? = some words) :
    (openDirective start name arguments).push words
        ⟨start + extent (.word name :: (arguments ++ blanks)),
          start + extent (.word name :: (arguments ++ blanks)) + Text.byteLength k.text⟩ =
      openDirective start name (arguments ++ (blanks ++ [k])) := by
  have htouch := argumentEnd_openDirective name start harguments hlast hblanks hlex
  have hmore : gatherArguments false [] (arguments ++ (blanks ++ [k])) =
      extendArguments (goesOn false (arguments ++ blanks)) (gatherArguments false [] arguments)
        words := by
    rw [← List.append_assoc, gatherArguments_append, gatherArguments_append false _ arguments,
      gatherArguments_blanks _ _ hblanks]
    simp [gatherArguments, hk]
  have hextent : extent (.word name :: (arguments ++ (blanks ++ [k]))) =
      extent (.word name :: (arguments ++ blanks)) + Text.byteLength k.text := by
    simp [Nat.add_assoc]
  rw [OpenDirective.push, htouch]
  simp [openDirective, hmore, hextent, Nat.add_assoc]

/-- The reader steps on as its draft does. -/
theorem Step.reader (h : d.Step k d') (hd : d.Sound) (hlex : ∀ x ∈ d.chunks, x.IsLexical)
    {t : Token} (ht : k.token = some t) (source : SourceFile) :
    (d.reader source).step source
        ⟨t, ⟨extent d.chunks, extent d.chunks + Text.byteLength k.text⟩⟩ =
      .ok (d'.reader source) := by
  cases h with
  | gap hk =>
    obtain rfl : t = .newline := by
      cases t <;> simp [Chunk.isGap, ht] at hk
      rfl
    rfl
  | comment =>
    obtain rfl := Option.some.inj ht
    simp [Reader.step, Reader.stepBetween, Reader.addLeaf, reader, Tail.pending, chunks,
      Tail.chunks, Layout.placeAll_concat, Layout.place, Layout.placeLeaf, Layout.own, Layout.gap,
      Nat.add_assoc]
  | word =>
    obtain rfl := Option.some.inj ht
    simp [Reader.step, Reader.stepBetween, reader, Tail.pending, chunks, Tail.chunks,
      openDirective, gatherArguments, Nat.add_assoc]
  | openTag =>
    obtain rfl := Option.some.inj ht
    simp [Reader.step, Reader.stepBetween, reader, Tail.pending, chunks, Tail.chunks,
      tagArguments, Nat.add_assoc]
  | closeTag hname =>
    obtain rfl := Option.some.inj ht
    simp [Reader.step, Reader.stepBetween, Reader.closeBlock, reader, Tail.pending, openBlocks,
      hname, chunks, Tail.chunks, openChunks, Layout.placeAll_concat, Layout.place, Layout.own,
      Layout.gap, openTagChunks, Nat.add_assoc]
  -- blanks have no token
  | blank hk => simp [hk] at ht
  | @argument opened done gap name arguments blanks k words hk =>
    obtain ⟨harguments, hlast, hblanks⟩ := hd.tail
    have hwords : Token.argumentWords? t = some words := by simpa [ht] using hk
    have hpush := push_openDirective name
      (extent (openChunks opened ++ (Layout.ownAll done ++ gap))) harguments hlast hblanks
      (fun x hx => hlex x (by simp [chunks, Tail.chunks, hx])) hk
    simp only [extent_append, extent_cons, Chunk.word_text, Nat.add_assoc] at hpush
    simp [Reader.step, Reader.stepDirective, hwords, reader, Tail.pending, chunks, Tail.chunks,
      hpush, Nat.add_assoc]
  | @endLine opened done gap name arguments blanks k hk =>
    obtain rfl := Option.some.inj (hk.symm.trans ht)
    simp [Reader.step, Reader.stepDirective, Token.argumentWords?, Reader.addLeaf, reader,
      Tail.pending, openDirective, Layout.placeAll_concat, Layout.place, Layout.placeLeaf,
      Layout.own, Layout.gap, Nat.add_assoc]
  | tagArgument hk =>
    have hword : (Token.tagArgument? t).isSome = true := by
      simpa [Chunk.isTagArgument, ht] using hk
    obtain ⟨word, hword⟩ := Option.isSome_iff_exists.1 hword
    simp [Reader.step, Reader.stepTag, hword, reader, Tail.pending, tagArguments, ht]
  | tagEnd =>
    obtain rfl := Option.some.inj ht
    simp [Reader.step, Reader.stepTag, Token.tagArgument?, Reader.openBlock, reader, Tail.pending,
      openBlocks, openChunks, openTagChunks, chunks, Tail.chunks, Layout.placeAll, Nat.add_assoc]

/-- Blanks and joined lines are nothing to the reader. -/
theorem Step.reader_of_none (h : d.Step k d') (hk : k.token = none) (source : SourceFile) :
    d'.reader source = d.reader source := by
  cases h with
  | tagArgument => simp [Draft.reader, Tail.pending, tagArguments, hk]
  | argument hwords => simp [hk] at hwords
  | endLine hbreak => simp [hk] at hbreak
  | _ => first | rfl | simp at hk

theorem exists_step_of_none (d : Draft) (hk : k.token = none) : ∃ d', d.Step k d' := by
  obtain ⟨opened, done, tail⟩ := d
  cases tail with
  | gap ks => exact ⟨_, .gap (by simp [Chunk.isGap, hk])⟩
  | directive ks name arguments blanks => exact ⟨_, .blank hk⟩
  | tag ks name arguments => exact ⟨_, .tagArgument (by simp [Chunk.isTagArgument, hk])⟩

/-- Where the reader steps on, so does its draft. -/
theorem exists_step (hk : k.IsLexical) {t : Token} (ht : k.token = some t) {span : Span}
    {source : SourceFile} {r : Reader}
    (h : (d.reader source).step source ⟨t, span⟩ = .ok r) : ∃ d', d.Step k d' := by
  obtain ⟨opened, done, tail⟩ := d
  cases tail with
  | gap ks =>
    replace h : Reader.stepBetween source _ _ = .ok r := h
    cases hk with
    | newline hbr => exact ⟨_, .gap rfl⟩
    | comment => exact ⟨_, .comment⟩
    | word => exact ⟨_, .word⟩
    | openTag => exact ⟨_, .openTag⟩
    | closeTag =>
      obtain rfl := Option.some.inj ht
      cases opened with
      | nil => simp [Reader.stepBetween, Draft.reader, openBlocks] at h
      | cons o outer =>
        simp only [Reader.stepBetween, Draft.reader, openBlocks] at h
        split at h
        · exact ⟨_, .closeTag ‹_›⟩
        · simp at h
    | blank => simp at ht
    | join => simp at ht
    -- a quoted literal, a `>` or a single `<` cannot start a statement
    | _ =>
      obtain rfl := Option.some.inj ht
      simp [Reader.stepBetween] at h
  | directive ks name arguments blanks =>
    replace h : Reader.stepDirective source _ _ _ = .ok r := h
    unfold Reader.stepDirective at h
    split at h
    · rename_i words hwords
      have hk : k.token.bind Token.argumentWords? = some words := by simpa [ht] using hwords
      exact ⟨_, .argument hk⟩
    · split at h
      · rename_i hbreak
        exact ⟨_, .endLine (by rw [ht, ← hbreak])⟩
      · simp at h
  | tag ks name arguments =>
    replace h : Reader.stepTag _ _ _ = .ok r := h
    unfold Reader.stepTag at h
    split at h
    · rename_i word hword
      exact ⟨_, .tagArgument (by simp [Chunk.isTagArgument, ht, hword])⟩
    · split at h
      · rename_i hend
        obtain rfl : t = .tagEnd := hend
        -- of all lexical forms only one has this token
        cases hk with
        | tagEnd => exact ⟨_, .tagEnd⟩
        | _ => simp at ht
      · simp at h

/-- Reading the lexemes of some chunks is drafting the chunks. -/
theorem foldlM_step_reader_iff {source : SourceFile} {r : Reader} (hd : d.Sound)
    (hlex : ∀ x ∈ d.chunks ++ ks, x.IsLexical) :
    (lexemesAt (extent d.chunks) ks).foldlM (Reader.step source) (d.reader source) = .ok r ↔
      ∃ d', d.Runs ks d' ∧ d'.reader source = r := by
  induction ks generalizing d with
  | nil => simp [lexemesAt, Runs, pure, Except.pure]
  | cons k ks ih =>
    have hk : k.IsLexical := hlex k (by simp)
    -- one step keeps the chunks in order, so the rest is read from where they end
    have hrest : ∀ m, d.Step k m →
        ((lexemesAt (extent d.chunks + Text.byteLength k.text) ks).foldlM (Reader.step source)
          (m.reader source) = .ok r ↔ ∃ d', m.Runs ks d' ∧ d'.reader source = r) := by
      intro m hm
      have hchunks := hm.chunks_eq
      have := ih (hm.sound hd) (by simpa [hchunks] using hlex)
      simpa [hchunks] using this
    cases ht : k.token with
    | none =>
      simp only [lexemesAt, Chunk.lexeme?, ht, Option.map_none, Option.toList_none, List.nil_append]
      constructor
      · intro h
        obtain ⟨m, hm⟩ := exists_step_of_none d ht
        rw [← hm.reader_of_none ht source] at h
        obtain ⟨d', hruns, hr⟩ := (hrest m hm).1 h
        exact ⟨d', ⟨m, hm, hruns⟩, hr⟩
      · rintro ⟨d', ⟨m, hm, hruns⟩, hr⟩
        rw [← hm.reader_of_none ht source]
        exact (hrest m hm).2 ⟨d', hruns, hr⟩
    | some t =>
      simp only [lexemesAt, Chunk.lexeme?, ht, Option.map_some, Option.toList_some,
        List.singleton_append, List.foldlM_cons]
      have hlex' : ∀ x ∈ d.chunks, x.IsLexical := fun x hx => hlex x (by simp [hx])
      constructor
      · intro h
        cases hstep : Reader.step source (d.reader source)
            ⟨t, ⟨extent d.chunks, extent d.chunks + Text.byteLength k.text⟩⟩ with
        | error e => simp [hstep, bind, Except.bind] at h
        | ok r' =>
          obtain ⟨m, hm⟩ := exists_step hk ht hstep
          rw [hm.reader hd hlex' ht source] at h
          obtain ⟨d', hruns, hr⟩ := (hrest m hm).1 h
          exact ⟨d', ⟨m, hm, hruns⟩, hr⟩
      · rintro ⟨d', ⟨m, hm, hruns⟩, hr⟩
        rw [hm.reader hd hlex' ht source]
        exact (hrest m hm).2 ⟨d', hruns, hr⟩

/-! ## Grammatical pages can be drafted -/

/-- Some statements and a gap after them are drafted. The last directive is still under way when
the gap has no line break. -/
def Rests (d : Draft) (opened : List OpenLayout) (done : List Layout) (gap : List Chunk) : Prop :=
  d = ⟨opened, done, .gap gap⟩ ∨
    breaksLine gap = false ∧ ∃ before leading name arguments,
      done = before ++ [.directive leading name arguments] ∧
        d = ⟨opened, before, .directive leading name arguments gap⟩

theorem Rests.eq_of_breaksLine (h : d.Rests opened done gap) (hbreak : breaksLine gap = true) :
    d = ⟨opened, done, .gap gap⟩ := by
  rcases h with h | ⟨hopen, -⟩
  · exact h
  · simp [hbreak] at hopen

/-- A gap can always be drafted; a line break in it ends the line. -/
theorem runs_gap (hd : d.Rests opened done gap) (hmore : more.all Chunk.isGap = true) :
    ∃ d', d.Runs more d' ∧ d'.Rests opened done (gap ++ more) ∧
      (d = ⟨opened, done, .gap gap⟩ → d' = ⟨opened, done, .gap (gap ++ more)⟩) := by
  induction more generalizing d gap with
  | nil => exact ⟨d, rfl, by simpa using hd, by simp⟩
  | cons k more ih =>
    obtain ⟨hk, hmore⟩ := Bool.and_eq_true_iff.1 ((List.all_cons ..).symm.trans hmore)
    obtain ⟨m, hstep, hrests, hexact⟩ : ∃ m, d.Step k m ∧ m.Rests opened done (gap ++ [k]) ∧
        (d = ⟨opened, done, .gap gap⟩ → m = ⟨opened, done, .gap (gap ++ [k])⟩) := by
      -- if a directive is under way, its line goes on up to the first line break
      rcases hd with rfl | ⟨hopen, before, leading, name, arguments, rfl, rfl⟩
      · exact ⟨_, .gap hk, .inl rfl, fun _ => rfl⟩
      · cases htoken : k.token with
        | none =>
          refine ⟨_, .blank htoken, .inr ⟨?_, before, leading, name, arguments, rfl, rfl⟩, by simp⟩
          rw [breaksLine_append, hopen]
          simp [breaksLine, htoken]
        | some t =>
          obtain rfl : t = .newline := by
            cases t <;> simp [Chunk.isGap, htoken] at hk
            rfl
          exact ⟨_, .endLine htoken, .inl rfl, fun _ => rfl⟩
    obtain ⟨d', hruns, hrests', hexact'⟩ := ih hrests hmore
    rw [List.append_assoc, List.singleton_append] at hrests' hexact'
    exact ⟨d', ⟨m, hstep, hruns⟩, hrests', fun h => hexact' (hexact h)⟩

theorem runs_arguments (hblanks : ∀ k ∈ blanks, k.token = none)
    (hmore : more.all Chunk.isArgument = true)
    (hlast : ∀ k ∈ (blanks ++ more).getLast?, k.token.isSome = true) :
    Runs ⟨opened, done, .directive gap name arguments blanks⟩ more
      ⟨opened, done, .directive gap name (arguments ++ (blanks ++ more)) []⟩ := by
  induction more generalizing arguments blanks with
  | nil =>
    -- a directive ends with a token, so no blanks are left over
    obtain rfl : blanks = [] := by
      rcases blanks.eq_nil_or_concat with h | ⟨others, b, rfl⟩
      · exact h
      · have hb := hlast b (by simp)
        simp [hblanks b (by simp)] at hb
    simp [Runs]
  | cons k more ih =>
    obtain ⟨hk, hmore⟩ := Bool.and_eq_true_iff.1 ((List.all_cons ..).symm.trans hmore)
    cases htoken : k.token with
    | none =>
      refine ⟨_, .blank htoken, ?_⟩
      have hblanks' : ∀ x ∈ blanks ++ [k], x.token = none := by
        intro x hx
        rcases List.mem_append.1 hx with hx | hx
        · exact hblanks x hx
        · rw [List.mem_singleton.1 hx, htoken]
      have hrest := @ih arguments (blanks ++ [k]) hblanks' hmore (by simpa using hlast)
      rwa [List.append_assoc, List.singleton_append] at hrest
    | some t =>
      have hwords : (Token.argumentWords? t).isSome = true := by
        simpa [Chunk.isArgument, htoken] using hk
      obtain ⟨words, hwords⟩ := Option.isSome_iff_exists.1 hwords
      have hk' : k.token.bind Token.argumentWords? = some words := by simp [htoken, hwords]
      -- the blanks before the token become part of the directive with it
      refine ⟨_, .argument hk', ?_⟩
      have hrest := @ih (arguments ++ (blanks ++ [k])) [] (by simp) hmore (by
        intro x hx
        refine hlast x ?_
        rw [List.nil_append] at hx
        simp [List.getLast?_append, List.getLast?_cons, Option.mem_def.1 hx])
      simpa using hrest

theorem runs_tagArguments (hmore : more.all Chunk.isTagArgument = true) :
    Runs ⟨opened, done, .tag gap name arguments⟩ more
      ⟨opened, done, .tag gap name (arguments ++ more)⟩ := by
  induction more generalizing arguments with
  | nil => simp [Runs]
  | cons k more ih =>
    obtain ⟨hk, hmore⟩ := Bool.and_eq_true_iff.1 ((List.all_cons ..).symm.trans hmore)
    refine ⟨_, .tagArgument hk, ?_⟩
    have hrest := @ih (arguments ++ [k]) hmore
    rwa [List.append_assoc, List.singleton_append] at hrest

mutual
theorem runs_own (opened : List OpenLayout) (done : List Layout) (l : Layout)
    (hl : l.Grammatical) :
    ∃ d', Runs ⟨opened, done, .gap l.gap⟩ l.own d' ∧ d'.Rests opened (done ++ [l]) [] ∧
      (l.isDirective = false → d' = ⟨opened, done ++ [l], .gap []⟩) := by
  match l with
  | .comment gap text => exact ⟨_, Step.comment.runs, .inl rfl, fun _ => rfl⟩
  | .directive gap name arguments =>
    obtain ⟨-, harguments, hlast⟩ := hl
    refine ⟨_, ⟨_, .word, runs_arguments (by simp) harguments (by simpa using hlast)⟩, ?_, nofun⟩
    exact .inr ⟨rfl, done, gap, name, arguments, rfl, by simp [Layout.gap]⟩
  | .block gap name arguments inside trailing closing blanks =>
    obtain ⟨-, harguments, hinside, hname⟩ := hl
    obtain ⟨m, hruns, hm⟩ := runs_all (⟨done, gap, name, arguments⟩ :: opened) []
      inside hinside (.inl rfl)
    obtain rfl : m = _ := hm.resolve_right (by simp)
    refine ⟨_, ?_, .inl rfl, fun _ => rfl⟩
    -- the open tag, what is inside, and the close tag, one after the other
    have htag : Runs ⟨opened, done, .gap gap⟩ (openTagChunks name arguments)
        ⟨⟨done, gap, name, arguments⟩ :: opened, [], .gap []⟩ :=
      ⟨_, .openTag, (runs_tagArguments harguments).trans Step.tagEnd.runs⟩
    have hclose := (htag.trans hruns).trans (@Step.closeTag _ _ _ _ _ blanks hname).runs
    simpa [Layout.own, Layout.gap] using hclose

theorem runs_all {last : Bool} {trailing : List Chunk} {d : Draft} (opened : List OpenLayout)
    (done ls : List Layout) (hls : Layout.GrammaticalAll last trailing ls)
    (hd : d = ⟨opened, done, .gap []⟩ ∨ d.Rests opened done [] ∧
      (breaksLine (Layout.nextGap trailing ls) = true ∨ last = true ∧ ls = [])) :
    ∃ d', d.Runs (Layout.ownAll ls ++ trailing) d' ∧
      (d' = ⟨opened, done ++ ls, .gap trailing⟩ ∨
        last = true ∧ d'.Rests opened (done ++ ls) trailing) := by
  have hrests : d.Rests opened done [] := hd.elim .inl And.left
  match ls with
  | [] =>
    obtain ⟨d', hruns, hrests', hexact⟩ := runs_gap hrests hls.trailing
    refine ⟨d', by simpa using hruns, ?_⟩
    rw [List.append_nil]
    rcases hd with hd | ⟨-, hbreak | ⟨hlast, -⟩⟩
    · exact .inl (hexact hd)
    · exact .inl (hrests'.eq_of_breaksLine hbreak)
    · exact .inr ⟨hlast, hrests'⟩
  | l :: ls =>
    obtain ⟨hl, hend, hls⟩ := hls
    have hgap : l.gap.all Chunk.isGap = true := by
      cases l <;> first | exact hl | exact hl.1
    obtain ⟨m, hgapRuns, hmRests, hexact⟩ := runs_gap hrests hgap
    -- the gap ends the line of the statement before, so the next one can start
    obtain rfl : m = ⟨opened, done, .gap l.gap⟩ := by
      rcases hd with hd | ⟨-, hbreak | ⟨-, hnil⟩⟩
      · exact hexact hd
      · exact hmRests.eq_of_breaksLine hbreak
      · simp at hnil
    obtain ⟨n, hownRuns, hnRests, hown⟩ := runs_own opened done l hl
    obtain ⟨d', hruns, hd'⟩ := runs_all opened (done ++ [l]) ls hls (d := n) (by
      by_cases hdir : l.isDirective = true
      · exact .inr ⟨hnRests, hend hdir⟩
      · exact .inl (hown (by simpa using hdir)))
    refine ⟨d', ?_, by simpa using hd'⟩
    simpa using (hgapRuns.trans hownRuns).trans hruns
end

/-! ## Finished drafts -/

/-- A draft of all statements of a page is read as the document of the page. -/
theorem Rests.finish (h : d.Rests [] done gap) (source : SourceFile) :
    (d.reader source).finish source = .ok (Page.place source ⟨done, gap⟩) := by
  rcases h with rfl | ⟨-, before, leading, name, arguments, rfl, rfl⟩
  · simp [Reader.finish, Reader.endLine, reader, Tail.pending, openBlocks, openChunks, Page.place]
  · simp [Reader.finish, Reader.endLine, Reader.addLeaf, reader, Tail.pending, openDirective,
      openBlocks, openChunks, Page.place, Layout.placeAll_concat, Layout.place, Layout.placeLeaf,
      Layout.own, Layout.gap, Nat.add_assoc]

/-- Where the reader can finish, all statements of a grammatical page are drafted. -/
theorem exists_page {source : SourceFile} {document : Fragment} (hd : d.Sound)
    (h : (d.reader source).finish source = .ok document) :
    ∃ p : Page, d.Rests [] p.statements p.trailing ∧ p.chunks = d.chunks ∧
      Layout.GrammaticalAll true p.trailing p.statements := by
  obtain ⟨opened, done, tail⟩ := d
  obtain ⟨-, hdone, htail⟩ := hd
  cases opened with
  -- an open block has no close tag
  | cons o outer =>
    cases tail <;> simp [Reader.finish, Reader.endLine, Reader.addLeaf, reader, Tail.pending,
      openBlocks] at h
  | nil =>
    cases tail with
    | tag ks name arguments => simp [Reader.finish, Reader.endLine, reader, Tail.pending] at h
    | gap ks => exact ⟨⟨done, ks⟩, .inl rfl, rfl, hdone.of_closed⟩
    -- the last directive ends with the file, and the blanks after it are the last gap
    | directive ks name arguments blanks =>
      obtain ⟨harguments, hlast, hblanks⟩ := htail
      refine ⟨⟨done ++ [.directive ks name arguments], blanks⟩, .inr ⟨?_, done, ks, name, arguments,
        rfl, rfl⟩, ?_, ?_⟩
      · simp only [breaksLine, List.any_eq_false]
        intro k hk
        simp [hblanks k hk]
      · simp [Page.chunks, chunks, openChunks, Tail.chunks, Layout.own, Layout.gap]
      · exact Layout.GrammaticalAll.concat_last (l := .directive ks name arguments) hdone
          ⟨hdone.trailing, harguments, hlast⟩ (all_isGap_of_blanks hblanks)

end Draft

/-- A text can be read exactly when it is that of a legible page, and the document is then that
page laid out from the first byte on. -/
theorem Fragment.read_eq_ok_iff {source : SourceFile} {document : Fragment} :
    Fragment.read source = .ok document ↔
      ∃ p : Page, p.Legible ∧ textOf p.chunks = source.text.toList ∧
        document = p.place source := by
  have hblank : Draft.blank.reader source = Reader.start := rfl
  constructor
  · -- the lexemes of the text are read from a blank draft on, which ends up with a page
    intro h
    unfold Fragment.read at h
    split at h
    · simp at h
    · rename_i lexemes hscan
      obtain ⟨ks, hks, htext, rfl⟩ := scanFrom_eq_ok_iff.1 hscan
      unfold Fragment.ofLexemes at h
      cases hfold : (lexemesAt 0 ks).foldlM (Reader.step source) Reader.start with
      | error e => simp [hfold, bind, Except.bind] at h
      | ok r =>
        have hlex : ∀ x ∈ Draft.blank.chunks ++ ks, x.IsLexical := by
          simpa [Draft.blank, Draft.chunks, openChunks, Tail.chunks] using hks.isLexical
        obtain ⟨d, hruns, rfl⟩ :=
          (Draft.foldlM_step_reader_iff Draft.blank_sound hlex).1 hfold
        simp only [hfold, bind, Except.bind] at h
        obtain ⟨p, hrests, hchunks, hgrammatical⟩ :=
          Draft.exists_page (hruns.sound Draft.blank_sound) h
        have hchunks' : p.chunks = ks := hchunks.trans hruns.chunks_eq
        refine ⟨p, ⟨hchunks' ▸ hks, hgrammatical⟩, hchunks' ▸ htext, ?_⟩
        exact Except.ok.inj (h.symm.trans (hrests.finish source))
  · -- the chunks of the page are scanned as they are, and drafting them is reading them
    rintro ⟨p, ⟨hwritten, hgrammatical⟩, htext, rfl⟩
    have hscan : scan source.text = .ok (lexemesAt 0 p.chunks) :=
      scanFrom_eq_ok_iff.2 ⟨p.chunks, hwritten, htext, rfl⟩
    obtain ⟨d, hruns, hd⟩ := Draft.runs_all [] [] p.statements hgrammatical (.inl rfl)
    have hrests : d.Rests [] p.statements p.trailing := hd.elim .inl And.right
    have hfold : (lexemesAt 0 p.chunks).foldlM (Reader.step source) Reader.start =
        .ok (d.reader source) :=
      (Draft.foldlM_step_reader_iff (d := .blank) Draft.blank_sound
        (by simpa [Draft.blank, Draft.chunks, openChunks, Tail.chunks] using hwritten.isLexical)).2
        ⟨d, hruns, rfl⟩
    rw [Fragment.read, hscan]
    simp only [Fragment.ofLexemes, hfold]
    exact hrests.finish source

theorem Fragment.exists_read (source : SourceFile) (h : (Fragment.read source).isOk = true) :
    ∃ document, Fragment.read source = .ok document := by
  cases hread : Fragment.read source with
  | error e => simp [hread, Except.isOk, Except.toBool] at h
  | ok document => exact ⟨document, rfl⟩

end HttpdConf
