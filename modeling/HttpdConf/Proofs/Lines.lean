import HttpdConf.Proofs.Layout
import HttpdConf.Tree.Render

/-!
# Lines that are written anew

A directive, an open tag or a comment that is not copied from its file is written from its name,
parameters or text. When these are plain, the line is read back as just these.

## Main definitions

* `isPlainWord`, `isQuotedLiteral`, `isPlainParameter`, `isPlainName`, `isPlainComment`: texts that
  the scanner takes as one token
* `parameterChunks`: the chunks of parameters on a line

## Main results

* `gatherArguments_parameterChunks`, `tagArguments_parameterChunks`: parameters are read back
* `commentText_commentLine`: comment texts are read back
* `written_directiveLine`, `written_tagLine`: what is written anew is made of written chunks
* `Ending.after_textOf`: a text that ends in a token ends in the middle of a line
-/

namespace HttpdConf

/-! ## Plain texts -/

/-- A text that is one word. -/
def isPlainWord (s : String) : Bool :=
  !s.toList.isEmpty && s.toList.all isWordChar && s.toList.head? != some '#'

/-- A text that is one quoted literal. -/
def isQuotedLiteral (s : String) : Bool :=
  match s.toList with
  | '"' :: body => spanQuoted? body == some (body, [])
  | _ => false

/-- A text that is one parameter. -/
def isPlainParameter (s : String) : Bool := isPlainWord s || isQuotedLiteral s

/-- A text that can name a block. -/
def isPlainName (s : String) : Bool :=
  s.toList.head?.any isNameStart && s.toList.all isNameChar

/-- A text that a comment can have: on one line, without outer blanks. -/
def isPlainComment (s : String) : Bool :=
  s.toList.all (fun c => !(c == '\r' || c == '\n')) && !(s.toList.head?.any Text.isBlank) &&
    !(s.toList.getLast?.any Text.isBlank)

/-! ## Parameters -/

/-- The chunk of a plain parameter. -/
def Chunk.parameter (s : String) : Chunk := if isPlainWord s then .word s else .quoted s

/-- The chunks of parameters on a line, each after a space. -/
def parameterChunks (parameters : List String) : List Chunk :=
  parameters.flatMap fun p => [.blank ' ', .parameter p]

@[simp]
theorem parameterChunks_nil : parameterChunks [] = [] := rfl

@[simp]
theorem parameterChunks_cons (p : String) (ps : List String) :
    parameterChunks (p :: ps) = .blank ' ' :: .parameter p :: parameterChunks ps := rfl

variable {s p name : String} {ps : List String} {k y : Chunk}

theorem isLexical_word (h : isPlainWord s = true) : (Chunk.word s).IsLexical := by
  simp only [isPlainWord, Bool.and_eq_true, bne_iff_ne, ne_eq] at h
  obtain ⟨⟨hne, hall⟩, hhash⟩ := h
  cases hcs : s.toList with
  | nil => simp [hcs] at hne
  | cons c cs =>
    rw [hcs, List.all_cons, Bool.and_eq_true, List.all_eq_true] at hall
    have hs : s = String.ofList (c :: cs) := by rw [← hcs, String.ofList_toList]
    rw [hs]
    exact .word hall.1 (by simpa [hcs] using hhash) hall.2

theorem isLexical_quoted (h : isQuotedLiteral s = true) : (Chunk.quoted s).IsLexical := by
  unfold isQuotedLiteral at h
  split at h
  · rename_i body hbody
    have hs : s = String.ofList ('"' :: body) := by rw [← hbody, String.ofList_toList]
    rw [hs]
    exact .quoted (beq_iff_eq.1 h)
  · simp at h

theorem isLexical_parameter (h : isPlainParameter p = true) : (Chunk.parameter p).IsLexical := by
  unfold Chunk.parameter
  by_cases hword : isPlainWord p = true
  · rw [if_pos hword]
    exact isLexical_word hword
  · rw [if_neg hword]
    refine isLexical_quoted ?_
    simpa [isPlainParameter, hword] using h

theorem exists_of_isPlainName (h : isPlainName name = true) : ∃ c cs,
    name = String.ofList (c :: cs) ∧ isNameStart c = true ∧ ∀ d ∈ cs, isNameChar d = true := by
  simp only [isPlainName, Bool.and_eq_true, List.all_eq_true] at h
  cases hcs : name.toList with
  | nil => simp [hcs] at h
  | cons c cs =>
    refine ⟨c, cs, by rw [← hcs, String.ofList_toList], by simpa [hcs] using h.1, fun d hd => ?_⟩
    exact h.2 d (by simp [hcs, hd])

theorem isLexical_openTag (h : isPlainName name = true) : (Chunk.openTag name).IsLexical := by
  obtain ⟨c, cs, rfl, hstart, hcs⟩ := exists_of_isPlainName h
  exact .openTag hstart hcs

theorem isLexical_closeTag (h : isPlainName name = true) : (Chunk.closeTag name []).IsLexical := by
  obtain ⟨c, cs, rfl, hstart, hcs⟩ := exists_of_isPlainName h
  exact .closeTag hstart hcs (by simp)

@[simp]
theorem Chunk.parameter_text : (Chunk.parameter p).text = p.toList := by
  unfold Chunk.parameter
  split <;> rfl

theorem Chunk.parameter_token :
    (Chunk.parameter p).token = some (.word p) ∨ (Chunk.parameter p).token = some (.quoted p) := by
  unfold Chunk.parameter
  split
  · exact .inl rfl
  · exact .inr rfl

theorem argumentWords?_parameter :
    (Chunk.parameter p).token.bind Token.argumentWords? = some [p] := by
  rcases Chunk.parameter_token (p := p) with h | h <;> rw [h] <;> rfl

theorem tagArgument?_parameter :
    (Chunk.parameter p).token.bind Token.tagArgument? = some p := by
  rcases Chunk.parameter_token (p := p) with h | h <;> rw [h] <;> rfl

/-- The parameters of a directive are read back. -/
theorem gatherArguments_parameterChunks (touching : Bool) (arguments ps : List String) :
    gatherArguments touching arguments (parameterChunks ps) = arguments ++ ps := by
  induction ps generalizing touching arguments with
  | nil => simp [gatherArguments]
  | cons p ps ih =>
    rw [parameterChunks_cons, gatherArguments]
    simp only [Chunk.blank_token, Option.bind_none]
    rw [gatherArguments, argumentWords?_parameter]
    simp only
    rw [ih]
    simp [extendArguments]

/-- The parameters of a block are read back. -/
theorem tagArguments_parameterChunks (ps : List String) :
    tagArguments (parameterChunks ps) = ps := by
  induction ps with
  | nil => rfl
  | cons p ps ih =>
    rw [tagArguments] at ih
    simp [tagArguments, tagArgument?_parameter, ih]

theorem all_isArgument_parameterChunks (ps : List String) :
    (parameterChunks ps).all Chunk.isArgument = true := by
  induction ps with
  | nil => rfl
  | cons p ps ih =>
    have hp : (Chunk.parameter p).isArgument = true := by
      rcases Chunk.parameter_token (p := p) with h | h <;>
        simp [Chunk.isArgument, h, Token.argumentWords?]
    rw [parameterChunks_cons, List.all_cons, List.all_cons, hp, ih]
    rfl

theorem all_isTagArgument_parameterChunks (ps : List String) :
    (parameterChunks ps).all Chunk.isTagArgument = true := by
  induction ps with
  | nil => rfl
  | cons p ps ih =>
    have hp : (Chunk.parameter p).isTagArgument = true := by
      rcases Chunk.parameter_token (p := p) with h | h <;>
        simp [Chunk.isTagArgument, h, Token.tagArgument?]
    rw [parameterChunks_cons, List.all_cons, List.all_cons, hp, ih]
    rfl

theorem getLast?_parameterChunks (ps : List String) :
    (parameterChunks ps).getLast? = ps.getLast?.map Chunk.parameter := by
  induction ps with
  | nil => rfl
  | cons p ps ih =>
    rw [parameterChunks_cons, List.getLast?_cons, List.getLast?_cons, ih, List.getLast?_cons]
    cases ps.getLast? <;> rfl

theorem token_getLast?_parameterChunks (ps : List String) :
    ∀ k ∈ (parameterChunks ps).getLast?, k.token.isSome = true := by
  intro k hk
  rw [getLast?_parameterChunks] at hk
  obtain ⟨p, -, rfl⟩ := Option.map_eq_some_iff.1 hk
  rcases Chunk.parameter_token (p := p) with h | h <;> rw [h] <;> rfl

/-! ## Lines -/

theorem textOf_line (name : String) (ps : List String) (standing : Option Bool) :
    (Statement.line ⟨name, ps, standing⟩).toList =
      textOf (.word name :: parameterChunks ps) := by
  have hfold : ∀ line : String, (ps.foldl (fun line p => line ++ " " ++ p) line).toList =
      line.toList ++ textOf (parameterChunks ps) := by
    intro line
    induction ps generalizing line with
    | nil => simp
    | cons p ps ih =>
      rw [List.foldl_cons, ih]
      simp
  rw [Statement.line, hfold, textOf_cons, Chunk.word_text]

theorem textOf_tagLine (name : String) (ps : List String) (standing : Option Bool) :
    ("<" ++ Statement.line ⟨name, ps, standing⟩ ++ ">").toList =
      textOf (openTagChunks name (parameterChunks ps)) := by
  rw [String.toList_append, String.toList_append, textOf_line]
  simp [openTagChunks]

/-- Parameters end before whatever cannot stand in a word. -/
theorem Chunk.parameter_meets (hy : y.token = none ∨ y.token = some .tagEnd) :
    (Chunk.parameter p).meets y = true := by
  unfold Chunk.meets
  rcases Chunk.parameter_token (p := p) with h | h <;> rcases hy with hy | hy <;> rw [h] <;>
    simp [hy]

theorem written_parameterChunks (hps : ∀ p ∈ ps, isPlainParameter p = true) :
    Written (parameterChunks ps) := by
  induction ps with
  | nil => exact .nil
  | cons p ps ih =>
    have hrest := ih fun q hq => hps q (by simp [hq])
    rw [parameterChunks_cons, Written.cons_iff, Written.cons_iff]
    refine ⟨.blank rfl, ⟨isLexical_parameter (hps p (by simp)), hrest, fun y hy => ?_⟩,
      fun y _ => rfl⟩
    cases ps with
    | nil => simp at hy
    | cons q ps =>
      obtain rfl : Chunk.blank ' ' = y := by simpa using hy
      exact Chunk.parameter_meets (.inl rfl)

/-- A directive that is written anew is made of written chunks. -/
theorem written_directiveLine (hname : (Chunk.word name).IsLexical)
    (hps : ∀ p ∈ ps, isPlainParameter p = true) : Written (.word name :: parameterChunks ps) := by
  refine Written.cons_iff.2 ⟨hname, written_parameterChunks hps, fun y hy => ?_⟩
  cases ps with
  | nil => simp at hy
  | cons p ps =>
    obtain rfl : Chunk.blank ' ' = y := by simpa using hy
    rfl

/-- An open tag that is written anew is made of written chunks. -/
theorem written_tagLine (hname : (Chunk.openTag name).IsLexical)
    (hps : ∀ p ∈ ps, isPlainParameter p = true) :
    Written (openTagChunks name (parameterChunks ps)) := by
  have htail : Written [Chunk.tagEnd] := Written.cons_iff.2 ⟨.tagEnd, .nil, by simp⟩
  rw [openTagChunks, Written.cons_iff, Written.append_iff]
  refine ⟨hname, ⟨written_parameterChunks hps, htail, ?_⟩, ?_⟩
  · intro x hx y hy
    rw [getLast?_parameterChunks] at hx
    obtain ⟨p, -, rfl⟩ := Option.map_eq_some_iff.1 hx
    obtain rfl : Chunk.tagEnd = y := by simpa using hy
    exact Chunk.parameter_meets (.inr rfl)
  · intro y hy
    cases ps with
    | nil =>
      obtain rfl : Chunk.tagEnd = y := by simpa using hy
      rfl
    | cons p ps =>
      obtain rfl : Chunk.blank ' ' = y := by simpa using hy
      rfl

/-! ## Comments -/

theorem Text.trimEnd_append {cs bs : List Char} (hbs : ∀ b ∈ bs, isBlank b = true) :
    trimEnd (cs ++ bs) = trimEnd cs := by
  rw [trimEnd, trimEnd, List.reverse_append, List.dropWhile_append_of_pos]
  simpa using hbs

theorem Text.trim_append {cs bs : List Char} (hbs : ∀ b ∈ bs, isBlank b = true) :
    trim (cs ++ bs) = trim cs := by
  rw [trim, trim, List.dropWhile_append]
  split
  · rename_i hempty
    rw [List.isEmpty_iff.1 hempty, List.dropWhile_eq_nil_iff.2 hbs]
  · exact trimEnd_append hbs

theorem Text.words_append {cs bs : List Char} (hbs : ∀ b ∈ bs, isBlank b = true) :
    words (cs ++ bs) = words cs := by
  have hnone : words bs = [] := by
    induction bs with
    | nil => rfl
    | cons b bs ih =>
      rw [words_cons_of_isBlank bs (hbs b (by simp))]
      exact ih fun b hb => hbs b (by simp [hb])
  -- blanks after a word end it, and blanks after blanks add nothing
  fun_induction words cs with
  | case1 => simpa using hnone
  | case2 c hc => rw [List.singleton_append, words_cons_of_isBlank _ hc, hnone]
  | case3 c hc =>
    cases bs with
    | nil => simp [words, hc]
    | cons b bs => simp [words, hc, hbs b (by simp), hnone]
  | case4 c d cs hc ih => simp_all [words]
  | case5 c d cs hc hd ih => simp_all [words]
  | case6 c d cs hc hd hempty ih => simp_all [words]
  | case7 c d cs hc hd w ws hwords ih => simp_all [words]

theorem isBlank_of_isSeparator {c : Char} (h : isSeparator c = true) : Text.isBlank c = true := by
  simp only [isSeparator, Bool.or_eq_true, beq_iff_eq] at h
  rcases h with (rfl | rfl) | rfl <;> decide

/-- Blanks after a comment are not part of its text. -/
theorem commentText_append {text : String} {bs : List Char}
    (hbs : ∀ b ∈ bs, isSeparator b = true) :
    commentText (text ++ String.ofList bs) = commentText text := by
  have hblank : ∀ b ∈ bs, Text.isBlank b = true := fun b hb => isBlank_of_isSeparator (hbs b hb)
  -- the blanks have no `#`, so they stay when the marks in front are dropped
  have hhash : bs.dropWhile (· == '#') = bs := by
    cases bs with
    | nil => rfl
    | cons b bs =>
      have hb := hbs b (by simp)
      refine List.dropWhile_cons_of_neg ?_
      rintro hb'
      rw [beq_iff_eq.1 hb'] at hb
      exact absurd hb (by decide)
  rw [commentText, commentText, String.toList_append, String.toList_ofList, List.dropWhile_append]
  split
  · rename_i hempty
    rw [hhash, List.isEmpty_iff.1 hempty, ← List.nil_append bs, Text.trim_append hblank]
  · rw [Text.trim_append hblank]

theorem toList_commentMark (text : String) : ("# " ++ text).toList = '#' :: ' ' :: text.toList := by
  rw [String.toList_append]
  rfl

/-- The text of a comment that is written anew is read back. -/
theorem commentText_commentLine {text : String} (h : isPlainComment text = true) :
    commentText (commentLine text) = text := by
  simp only [isPlainComment, Bool.and_eq_true, Bool.not_eq_true'] at h
  obtain ⟨⟨-, hfirst⟩, hlast⟩ := h
  unfold commentLine
  split
  · rename_i hempty
    rw [String.isEmpty_iff.1 hempty]
    rfl
  · -- a plain text has no blanks at either end, so trimming takes off the one after the mark only
    have hstart : text.toList.dropWhile Text.isBlank = text.toList := by
      cases hcs : text.toList with
      | nil => rfl
      | cons c cs =>
        refine List.dropWhile_cons_of_neg ?_
        simpa [hcs] using hfirst
    have hend : Text.trimEnd text.toList = text.toList := by
      rw [Text.trimEnd]
      cases hcs : text.toList.reverse with
      | nil => rw [List.reverse_eq_nil_iff.1 hcs]; rfl
      | cons c cs =>
        have hc : text.toList.getLast? = some c := by
          rw [← List.head?_reverse, hcs, List.head?_cons]
        rw [List.dropWhile_cons_of_neg (by simpa [hc] using hlast), ← hcs, List.reverse_reverse]
    have hhash : ('#' :: ' ' :: text.toList).dropWhile (· == '#') = ' ' :: text.toList := rfl
    rw [commentText, toList_commentMark, hhash, Text.trim,
      List.dropWhile_cons_of_pos (by decide), hstart, hend, String.ofList_toList]

theorem isLexical_comment {text : String} (h : isPlainComment text = true) :
    (Chunk.comment (commentLine text)).IsLexical := by
  simp only [isPlainComment, Bool.and_eq_true, List.all_eq_true, Bool.not_eq_true',
    Bool.or_eq_false_iff, beq_eq_false_iff_ne] at h
  unfold commentLine
  split
  · exact @Chunk.IsLexical.comment [] (by simp)
  · have hline : "# " ++ text = String.ofList ('#' :: ' ' :: text.toList) := by
      rw [← toList_commentMark, String.ofList_toList]
    rw [hline]
    refine .comment fun c hc => ?_
    rcases List.mem_cons.1 hc with rfl | hc
    · decide
    · exact h.1.1 c hc

/-! ## Ends of lines -/

/-- The last characters of a text are those of its last chunk. -/
theorem getLast?_textOf {ks : List Chunk} (hk : k ∈ ks.getLast?) (hne : k.text ≠ []) :
    (textOf ks).getLast? = k.text.getLast? := by
  obtain ⟨before, rfl⟩ := List.getLast?_eq_some_iff.1 hk
  rw [textOf_append, textOf_cons, textOf_nil, List.append_nil, List.getLast?_append_of_ne_nil _ hne]

/-- A gap starts with neither a name nor a tag. -/
theorem Chunk.IsLexical.text_of_isGap (hlex : y.IsLexical) (hy : y.isGap = true) :
    y.text.head?.any isNameChar = false ∧ Chunk.startsTag y.text = false := by
  cases hlex with
  | blank hc =>
    simp only [isSeparator, Bool.or_eq_true, beq_iff_eq] at hc
    rcases hc with (rfl | rfl) | rfl <;> exact ⟨rfl, rfl⟩
  | newline hbr => rcases hbr with rfl | rfl <;> exact ⟨rfl, rfl⟩
  | join hbr => exact ⟨rfl, rfl⟩
  | _ => simp [Chunk.isGap] at hy

/-- A text ends before a gap unless it ends in a comment, or in a backslash before a line break. -/
theorem Chunk.meets_gap (hk : ∀ text, k.token ≠ some (.comment text))
    (hword : ∀ text, k.token = some (.word text) → k.text.getLast? = some '\\' →
      y.token ≠ some .newline)
    (hlex : y.IsLexical) (hy : y.isGap = true) : k.meets y = true := by
  obtain ⟨hname, htag⟩ := hlex.text_of_isGap hy
  unfold Chunk.meets
  split
  · exact absurd ‹_› (hk _)
  · split
    · simp_all [Chunk.isGap]
    · simp_all [Chunk.isGap]
    · simpa using fun hback => hword _ ‹_› hback ‹_›
    · rfl
  · rw [hname, Bool.not_false]
  · rw [htag, Bool.not_false]
  · rfl

/-- A directive that is written anew ends before every gap, unless it ends in a backslash. -/
theorem directiveLine_meets_gap (standing : Option Bool)
    (hline : (Statement.line ⟨name, ps, standing⟩).toList.getLast? ≠ some '\\')
    (hname : (Chunk.word name).IsLexical) (hps : ∀ p ∈ ps, isPlainParameter p = true)
    (hlex : y.IsLexical) (hy : y.isGap = true) :
    ∀ x ∈ (Chunk.word name :: parameterChunks ps).getLast?, x.meets y = true := by
  intro x hx
  have hform := (written_directiveLine hname hps).isLexical x (List.mem_of_getLast? hx)
  rw [textOf_line, getLast?_textOf hx hform.text_ne_nil] at hline
  refine Chunk.meets_gap (fun text htoken => ?_) (fun _ _ hback => absurd hback hline) hlex hy
  rw [List.getLast?_cons, getLast?_parameterChunks] at hx
  -- the line ends in its last parameter, or in its name if it has none
  cases hlast : ps.getLast? with
  | none =>
    obtain rfl : Chunk.word name = x := by simpa [hlast] using hx
    simp at htoken
  | some p =>
    obtain rfl : Chunk.parameter p = x := by simpa [hlast] using hx
    rcases Chunk.parameter_token (p := p) with h | h <;> simp [h] at htoken

/-- A quoted literal ends with its closing quote. -/
theorem spanQuoted?_getLast? {cs body rest : List Char} (h : spanQuoted? cs = some (body, rest)) :
    body.getLast? = some '"' := by
  fun_induction spanQuoted? cs generalizing body with
  | case1 => simp at h
  | case2 cs => obtain ⟨rfl, rfl⟩ := Prod.mk.inj (Option.some.inj h); rfl
  | case3 => simp at h
  | case4 => simp at h
  | case5 c cs hc ih =>
    obtain ⟨⟨b, r⟩, hb, he⟩ := Option.map_eq_some_iff.1 h
    obtain ⟨rfl, rfl⟩ := Prod.mk.inj he
    simp [List.getLast?_cons, ih hb]
  | case6 c cs hquote hback hback' ih =>
    obtain ⟨⟨b, r⟩, hb, he⟩ := Option.map_eq_some_iff.1 h
    obtain ⟨rfl, rfl⟩ := Prod.mk.inj he
    simp [List.getLast?_cons, ih hb]

/-- Only gaps end with `LF`. -/
theorem Chunk.IsLexical.getLast?_text (hk : k.IsLexical) (hgap : k.isGap = false) :
    ∃ c, k.text.getLast? = some c ∧ c ≠ '\n' := by
  -- the last letter is one of the text, which has no line break
  have hlast : ∀ {cs : List Char}, cs ≠ [] → '\n' ∉ cs → ∃ c, cs.getLast? = some c ∧ c ≠ '\n' := by
    intro cs hne hnone
    refine ⟨cs.getLast hne, List.getLast?_eq_some_getLast hne, fun heq => hnone ?_⟩
    rw [← heq]
    exact List.getLast_mem hne
  cases hk with
  | comment hbody =>
    refine hlast (by simp) fun hmem => ?_
    rw [Chunk.comment_text, String.toList_ofList, List.mem_cons] at hmem
    rcases hmem with hmem | hmem
    · simp at hmem
    · exact (hbody _ hmem).2 rfl
  | quoted hbody =>
    refine ⟨'"', ?_, by decide⟩
    rw [Chunk.quoted_text, String.toList_ofList, List.getLast?_cons, spanQuoted?_getLast? hbody]
    rfl
  | word hc hhash hmore =>
    refine hlast (by simp) fun hmem => ?_
    rw [Chunk.word_text, String.toList_ofList, List.mem_cons] at hmem
    rcases hmem with rfl | hmem
    · simp [isWordChar] at hc
    · simpa [isWordChar] using hmore _ hmem
  | openTag hc hname =>
    refine hlast (by simp) fun hmem => ?_
    rw [Chunk.openTag_text, String.toList_ofList, List.mem_cons, List.mem_cons] at hmem
    rcases hmem with hmem | rfl | hmem
    · simp at hmem
    · exact absurd hc (by decide)
    · exact absurd (hname _ hmem) (by decide)
  | closeTag hc hname _ =>
    refine ⟨'>', ?_, by decide⟩
    simp [List.getLast?_cons, List.getLast?_append]
  | tagEnd => exact ⟨'>', rfl, by decide⟩
  | less => exact ⟨'<', rfl, by decide⟩
  | _ => simp [Chunk.isGap] at hgap

/-- A text that ends in a token ends in the middle of a line. -/
theorem Ending.after_textOf {ks : List Chunk} (e : Ending) (hk : k ∈ ks.getLast?)
    (hlex : k.IsLexical) (hgap : k.isGap = false) :
    e.after (String.ofList (textOf ks)) = .midLine := by
  obtain ⟨c, hc, hne⟩ := hlex.getLast?_text hgap
  have hlast : (textOf ks).getLast? = some c := by
    rw [getLast?_textOf hk hlex.text_ne_nil, hc]
  simp [Ending.after, hlast, hne]

namespace Ending

/-- How a text ends does not depend on what came before, unless it is empty. -/
theorem after_eq {text : String} (h : text.toList ≠ []) (e e' : Ending) :
    e.after text = e'.after text := by
  rw [after, after, List.getLast?_eq_some_getLast h]

theorem after_append (e : Ending) (s t : String) : e.after (s ++ t) = (e.after s).after t := by
  simp only [after, String.toList_append, List.getLast?_append]
  cases t.toList.getLast? <;> rfl

end Ending

end HttpdConf
