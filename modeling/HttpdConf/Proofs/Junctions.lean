import HttpdConf.Proofs.Seams

/-!
# Junctions

A statement that comes to stand before another gap keeps its text and its arguments if it ends
there: its line has to end, a comment must not take in anything but blanks, and a word must not
lose a backslash to a line break. Statements all of which end before the next gap can be read from
their common text.

## Main definitions

* `Token.endsBefore`: whether a statement with a given last token ends before a gap
* `Layout.SeparatedAll`: statements that all end before the next gap
* `Layout.renewGaps`: statements with the gaps that rendering puts before them

## Main results

* `Layout.SeparatedAll.exists_legible`: separated statements have the text of legible ones
* `Layout.LegibleAll.separatedAll`: legible statements are separated
* `Layout.separatedAll_append`: what has to hold where two rows of statements are put together
-/

namespace HttpdConf

/-! ## Last tokens -/

/-- Whether a gap ends a line: it has a line break that is not joined. -/
def endsLine (gap : List Char) : Bool :=
  (scanFrom 0 gap).toOption.any fun lexemes => lexemes.any (·.token == .newline)

/-- Whether a comment before a gap takes in nothing but blanks. -/
def endsComment (last : Bool) (gap : List Char) : Bool :=
  !(gap.takeWhile (· != '\n')).contains '\\' && (last || gap.contains '\n')

/-- Whether a statement with this last token ends before a gap, and keeps the token. When `last` is
set, nothing comes after the gap and the line may be left open. -/
def Token.endsBefore (last : Bool) (gap : List Char) : Token → Bool
  | .closeTag _ => true
  | .comment _ => endsComment last gap
  | .word text =>
    (last || endsLine gap) && !(text.toList.getLast? == some '\\' && startsWithBreak gap)
  | _ => last || endsLine gap

/-- The last token of a text. -/
def lastToken? (text : String) : Option Token :=
  (scan text).toOption.bind fun lexemes => lexemes.getLast?.map Lexeme.token

variable {ks rest : List Chunk} {x : Chunk} {last : Bool}

theorem any_newline_lexemesAt (offset : Nat) (ks : List Chunk) :
    (lexemesAt offset ks).any (·.token == .newline) = breaksLine ks := by
  induction ks generalizing offset with
  | nil => rfl
  | cons k ks ih =>
    rw [lexemesAt, List.any_append, ih, breaksLine, breaksLine, List.any_cons]
    cases htoken : k.token <;> simp [Chunk.lexeme?, htoken]

theorem endsLine_textOf (h : Written ks) : endsLine (textOf ks) = breaksLine ks := by
  have hscan : scanFrom 0 (textOf ks) = .ok (lexemesAt 0 ks) :=
    scanFrom_eq_ok_iff.2 ⟨ks, h, rfl, rfl⟩
  rw [endsLine, hscan]
  exact any_newline_lexemesAt 0 ks

theorem lastToken?_textOf (h : Written ks) (hx : ks.getLast? = some x) {t : Token}
    (ht : x.token = some t) : lastToken? (String.ofList (textOf ks)) = some t := by
  obtain ⟨as, rfl⟩ := List.getLast?_eq_some_iff.1 hx
  rw [lastToken?, h.scan_eq]
  exact getLast?_lexemesAt_concat ht

/-! ## Gaps after comments -/

@[simp]
theorem textOf_blanks (bs : List Char) : textOf (bs.map Chunk.blank) = bs := by
  induction bs with
  | nil => rfl
  | cons b bs ih => simp [ih]

/-- A gap starts with blanks, up to a line break or a joined line. -/
theorem Gap.exists_blanks (h : Gap ks) : ∃ (bs : List Char) (ks' : List Chunk),
    ks = bs.map Chunk.blank ++ ks' ∧
    (∀ b ∈ bs, isSeparator b = true) ∧ Gap ks' ∧
    ∀ y ∈ ks'.head?, y.token = some .newline ∨ ∃ br, IsBreak br ∧ y = .join br := by
  induction ks with
  | nil => exact ⟨[], [], rfl, by simp, h, by simp⟩
  | cons k ks ih =>
    obtain ⟨⟨hk, hform⟩, hks⟩ := gap_cons.1 h
    cases hform with
    | @blank c hc =>
      obtain ⟨bs, ks', rfl, hbs, hks', hhead⟩ := ih hks
      exact ⟨c :: bs, ks', rfl, by simpa using ⟨hc, hbs⟩, hks', hhead⟩
    | join hbr => exact ⟨[], _, rfl, by simp, h, fun y hy => .inr ⟨_, hbr, by simpa using hy.symm⟩⟩
    | newline hbr =>
      exact ⟨[], _, rfl, by simp, h, fun y hy => .inl (by rw [← Option.some.inj hy]; rfl)⟩
    | _ => simp [Chunk.isGap] at hk

theorem ne_newline_of_isSeparator {c : Char} (h : isSeparator c = true) : c ≠ '\n' := by
  rintro rfl
  exact absurd h (by decide)

/-- A comment that takes in nothing but blanks ends with the text or before a line break. -/
theorem Gap.exists_blanks_of_endsComment (h : Gap ks)
    (hends : endsComment last (textOf ks) = true) :
    ∃ (bs : List Char) (ks' : List Chunk), ks = bs.map Chunk.blank ++ ks' ∧
      (∀ b ∈ bs, isSeparator b = true) ∧
      (ks' = [] ∧ last = true ∨ ∃ y more, ks' = y :: more ∧ y.token = some .newline) := by
  obtain ⟨bs, ks', rfl, hbs, -, hhead⟩ := h.exists_blanks
  have hblanks : ∀ b ∈ bs, b ≠ '\n' := fun b hb => ne_newline_of_isSeparator (hbs b hb)
  simp only [endsComment, textOf_append, textOf_blanks, Bool.and_eq_true, Bool.not_eq_true',
    Bool.or_eq_true, List.contains_eq_mem, decide_eq_true_eq, decide_eq_false_iff_not,
    List.mem_append] at hends
  obtain ⟨hjoin, hbreak⟩ := hends
  refine ⟨bs, ks', rfl, hbs, ?_⟩
  cases ks' with
  | nil =>
    refine .inl ⟨rfl, hbreak.resolve_right ?_⟩
    rintro (hmem | hmem)
    · exact hblanks _ hmem rfl
    · simp at hmem
  | cons y more =>
    refine .inr ⟨y, more, rfl, (hhead y rfl).resolve_right ?_⟩
    -- a joined line would bring a backslash into the first line
    rintro ⟨br, -, rfl⟩
    refine hjoin ?_
    rw [List.takeWhile_append_of_pos (by simpa using hblanks), textOf_cons]
    simp

/-! ## Statements that end -/

namespace Layout

variable {l : Layout} {ls as bs : List Layout} {gap trailing : List Chunk}

/-- The statement ends before a gap. -/
def EndsBefore (last : Bool) (gap : List Chunk) (l : Layout) : Prop :=
  ∀ x ∈ l.own.getLast?, ∀ t ∈ x.token, t.endsBefore last (textOf gap) = true

/-- The statements are grammatical and written each by itself, after any gaps, and each ends before
the next gap. -/
def SeparatedAll (last : Bool) (trailing : List Chunk) : List Layout → Prop
  | [] => Gap trailing
  | l :: ls =>
    Gap l.gap ∧ l.Grammatical ∧ Written l.own ∧
      l.EndsBefore (last && ls.isEmpty) (nextGap trailing ls) ∧ SeparatedAll last trailing ls

/-- The statements can be read before the last gap and what comes after it. -/
structure LegibleAll (last : Bool) (trailing rest : List Chunk) (ls : List Layout) : Prop where
  grammatical : GrammaticalAll last trailing ls
  written : Written (ownAll ls ++ (trailing ++ rest))

theorem SeparatedAll.gap_nextGap (h : SeparatedAll last trailing ls) :
    Gap (nextGap trailing ls) := by
  cases ls with
  | nil => exact h
  | cons l ls => exact h.1

theorem SeparatedAll.forall_written (h : SeparatedAll last trailing ls) :
    ∀ l ∈ ls, l.Grammatical ∧ Written l.own := by
  induction ls with
  | nil => simp
  | cons m ls ih =>
    obtain ⟨-, hm, hown, -, hls⟩ := h
    intro l hl
    rcases List.mem_cons.1 hl with rfl | hl
    · exact ⟨hm, hown⟩
    · exact ih hls l hl

/-- The first part of the first gap can be taken off. -/
theorem LegibleAll.exists_trimmed {more : List Chunk} (h : LegibleAll last trailing rest ls)
    (hgap : nextGap trailing ls = gap ++ more) :
    ∃ ls' trailing',
      textOf (ownAll ls ++ trailing) = textOf gap ++ textOf (ownAll ls' ++ trailing') ∧
      shapes ls' = shapes ls ∧ LegibleAll last trailing' rest ls' ∧
      nextGap trailing' ls' = more ∧ (ls' = [] ↔ ls = []) := by
  cases ls with
  | nil =>
    obtain rfl : trailing = gap ++ more := hgap
    have hw := h.written
    rw [ownAll_nil, List.nil_append, List.append_assoc] at hw
    have hmore : more.all Chunk.isGap = true := by
      have hall := h.grammatical.trailing
      rw [List.all_append, Bool.and_eq_true] at hall
      exact hall.2
    exact ⟨[], more, by simp, rfl, ⟨hmore, (Written.append_iff.1 hw).2.1⟩, rfl, Iff.rfl⟩
  | cons l ls =>
    obtain ⟨⟨hl, hend, hls⟩, hw⟩ := h
    rw [nextGap] at hgap
    rw [ownAll_cons, hgap, List.append_assoc, List.append_assoc] at hw
    have hmore : more.all Chunk.isGap = true := by
      have hall := hl.all_isGap
      rw [hgap, List.all_append, Bool.and_eq_true] at hall
      exact hall.2
    refine ⟨l.withGap more :: ls, trailing, ?_, ?_, ⟨⟨hl.withGap hmore, ?_, hls⟩, ?_⟩, ?_, by simp⟩
    · simp [hgap]
    · rw [shapes, shapes, withGap_shape]
    · simpa using hend
    · simpa using (Written.append_iff.1 hw).2.1
    · rw [nextGap, withGap_gap]

/-- What comes first after a statement is the next gap, or what stands in its place. -/
theorem mem_nextGap_or {y : Chunk} (hy : y ∈ (ownAll ls ++ (trailing ++ rest)).head?) :
    y ∈ (nextGap trailing ls).head? ∨
      nextGap trailing ls = [] ∧ (ls = [] → y ∈ rest.head?) := by
  cases ls with
  | nil =>
    cases trailing with
    | nil => exact .inr ⟨rfl, fun _ => hy⟩
    | cons z trailing => exact .inl hy
  | cons m ms =>
    rw [nextGap]
    rw [ownAll_cons] at hy
    cases hgap : m.gap with
    | nil => exact .inr ⟨rfl, by simp⟩
    | cons z gap => exact .inl (by simpa [hgap] using hy)

/-- A statement ends in a token. -/
theorem Grammatical.exists_getLast? (hl : l.Grammatical) :
    ∃ x t, l.own.getLast? = some x ∧ x.token = some t ∧ t ≠ .newline := by
  obtain ⟨k, ks, hown, -⟩ := l.exists_own_eq_cons
  have hx : l.own.getLast? = some (l.own.getLast (by simp [hown])) :=
    List.getLast?_eq_some_getLast _
  have hgap := hl.isGap_getLast? _ hx
  unfold Chunk.isGap at hgap
  cases htoken : (l.own.getLast (by simp [hown])).token with
  | none => simp [htoken] at hgap
  | some t =>
    refine ⟨_, t, hx, htoken, ?_⟩
    rintro rfl
    simp [htoken] at hgap

/-- A statement that ends in a close tag is a block. -/
theorem Grammatical.isDirective_of_closeTag (hl : l.Grammatical) {x : Chunk}
    (hx : l.own.getLast? = some x) {name : String} (hname : x.token = some (.closeTag name)) :
    l.isDirective = false := by
  cases l with
  | comment => rfl
  | block => rfl
  | directive gap first arguments =>
    obtain ⟨-, harguments, -⟩ := hl
    rw [own, List.getLast?_cons] at hx
    cases hargs : arguments.getLast? with
    | none =>
      obtain rfl : Chunk.word first = x := by simpa [hargs] using hx
      simp at hname
    | some y =>
      obtain rfl : y = x := by simpa [hargs] using hx
      have hy := List.all_eq_true.1 harguments y (List.mem_of_getLast? hargs)
      simp [Chunk.isArgument, hname, Token.argumentWords?] at hy

/-- A statement that ends in neither a comment nor a close tag is a directive. -/
theorem isDirective_of_getLast? {x : Chunk} {t : Token} (hx : l.own.getLast? = some x)
    (ht : x.token = some t) (hcomment : ¬ ∃ text, t = .comment text)
    (hclose : ¬ ∃ name, t = .closeTag name) : l.isDirective = true := by
  cases l with
  | comment gap text =>
    obtain rfl : Chunk.comment text = x := by simpa [own] using hx
    exact absurd ⟨text, (Option.some.inj ht).symm⟩ hcomment
  | directive => rfl
  | block gap name arguments inside trailing closing blanks =>
    obtain rfl : Chunk.closeTag closing blanks = x := by
      simpa [own, List.getLast?_append] using hx
    exact absurd ⟨closing, (Option.some.inj ht).symm⟩ hclose

/-- Unless it ends in a comment, a statement that ends before a gap meets what comes next. -/
theorem EndsBefore.meets (h : l.EndsBefore (last && ls.isEmpty) (nextGap trailing ls))
    (hgap : Gap (nextGap trailing ls)) (hrest : last = true → rest = []) {x : Chunk} {t : Token}
    (hx : l.own.getLast? = some x) (ht : x.token = some t) (hlex : x.IsLexical)
    (hcomment : ∀ text, t ≠ .comment text) :
    ∀ y ∈ (ownAll ls ++ (trailing ++ rest)).head?, x.meets y = true := by
  intro y hy
  have hends := h x hx t ht
  by_cases hclose : ∃ name, t = .closeTag name
  · obtain ⟨name, rfl⟩ := hclose
    simp [Chunk.meets, ht]
  have hline : (last && ls.isEmpty) = true ∨ endsLine (textOf (nextGap trailing ls)) = true := by
    cases t <;> simp_all [Token.endsBefore]
  rcases mem_nextGap_or hy with hmem | ⟨hnil, hmem⟩
  · -- the gap is not empty, and a backslash is not lost to a line break
    obtain ⟨y', more, hcons⟩ : ∃ y' more, nextGap trailing ls = y' :: more := by
      cases hnext : nextGap trailing ls with
      | nil => simp [hnext] at hmem
      | cons y' more => exact ⟨y', more, rfl⟩
    obtain rfl : y' = y := by simpa [hcons] using hmem
    rw [hcons] at hgap
    obtain ⟨⟨hy, hform⟩, -⟩ := gap_cons.1 hgap
    refine Chunk.meets_gap (by simpa [ht] using hcomment) (fun text hword hback hbreak => ?_)
      hform hy
    have hstarts : startsWithBreak (textOf (nextGap trailing ls)) = true := by
      rw [hcons, textOf_cons, hform.startsWithBreak_iff]
      exact hbreak
    obtain rfl := hlex.eq_word hword
    obtain rfl : Token.word text = t := Option.some.inj ht
    rw [Chunk.word_text] at hback
    simp [Token.endsBefore, hback, hstarts] at hends
  · -- without a gap, the line is left open at the end of the text
    rw [hnil] at hline
    have hopen := hline.resolve_right (by simp [endsLine, scanFrom, Except.toOption])
    rw [Bool.and_eq_true, List.isEmpty_iff] at hopen
    simp [hrest hopen.1] at hmem
    exact absurd hopen.2 hmem

/-- A statement that ends before the next gap also ends its line there. -/
theorem EndsBefore.breaksLine_or (hl : l.Grammatical) (hgap : Gap (nextGap trailing ls))
    (h : l.EndsBefore (last && ls.isEmpty) (nextGap trailing ls))
    (hdirective : l.isDirective = true) :
    breaksLine (nextGap trailing ls) = true ∨ last = true ∧ ls = [] := by
  obtain ⟨x, t, hx, ht, -⟩ := hl.exists_getLast?
  have hends := h x hx t ht
  have hline : (last && ls.isEmpty) = true ∨ breaksLine (nextGap trailing ls) = true := by
    have hwritten : Written (nextGap trailing ls) := by
      simpa using hgap.written_append .nil
    have hendsLine := endsLine_textOf hwritten
    cases t with
    | closeTag name => simp [hl.isDirective_of_closeTag hx ht] at hdirective
    | comment text =>
      obtain ⟨bs, ks', hks, -, ⟨-, hlast⟩ | ⟨y, more, rfl, hy⟩⟩ :=
        hgap.exists_blanks_of_endsComment hends
      · exact .inl hlast
      · exact .inr (by simp [hks, breaksLine, hy])
    | word text => simp_all [Token.endsBefore]
    | _ => simpa [Token.endsBefore, hendsLine] using hends
  rcases hline with hlast | hbreak
  · exact .inr (by simpa using hlast)
  · exact .inl hbreak

/-- A statement is put before others whose first gap it ends before. If it ends in a comment, this
takes in the blanks that follow. -/
theorem LegibleAll.exists_cons (h : LegibleAll last trailing rest ls)
    (hrest : last = true → rest = []) (hgap : Gap (nextGap trailing ls)) (hlead : Gap l.gap)
    (hl : l.Grammatical) (hw : Written l.own)
    (hends : l.EndsBefore (last && ls.isEmpty) (nextGap trailing ls)) :
    ∃ l' ls' trailing', textOf (ownAll (l' :: ls') ++ trailing') =
        textOf (ownAll (l :: ls) ++ trailing) ∧ shapes (l' :: ls') = shapes (l :: ls) ∧
      LegibleAll last trailing' rest (l' :: ls') ∧ l'.gap = l.gap := by
  obtain ⟨x, t, hx, ht, -⟩ := hl.exists_getLast?
  have hlex := hw.isLexical x (List.mem_of_getLast? hx)
  by_cases hcomment : ∃ text, t = .comment text
  · -- the comment goes on up to the line break, so it is the longer one that stands there
    obtain ⟨text, rfl⟩ := hcomment
    obtain rfl := hlex.eq_comment ht
    obtain ⟨bs, gap', hnext, hbs, hhead⟩ :=
      hgap.exists_blanks_of_endsComment (hends _ hx _ ht)
    obtain ⟨ls', trailing', htext, hshapes, hlegible, hnext', hnil⟩ := h.exists_trimmed hnext
    obtain ⟨l', hown, hshape, hgrammatical, hwritten, hlast⟩ := exists_lengthened hl hw hx hbs
    refine ⟨l'.withGap l.gap, ls', trailing', ?_, ?_, ⟨⟨?_, fun _ => ?_, hlegible.grammatical⟩, ?_⟩,
      withGap_gap⟩
    · simp only [textOf_append, textOf_blanks] at htext
      simp only [ownAll_cons, withGap_gap, withGap_own, textOf_append, List.append_assoc, hown,
        htext]
    · rw [shapes, shapes, withGap_shape, hshape, hshapes]
    · exact hgrammatical.withGap hlead.all_isGap
    · rw [hnext']
      rcases hhead with ⟨-, hopen⟩ | ⟨y, more, rfl, hy⟩
      · rw [Bool.and_eq_true, List.isEmpty_iff] at hopen
        exact .inr ⟨hopen.1, hnil.2 hopen.2⟩
      · exact .inl (by simp [breaksLine, hy])
    · rw [ownAll_cons, withGap_gap, withGap_own, List.append_assoc, List.append_assoc]
      refine hlead.written_append (Written.append_iff.2 ⟨hwritten, hlegible.written, ?_⟩)
      intro z hz y hy
      obtain rfl := Option.some.inj (hlast.symm.trans hz)
      rcases hhead with ⟨hgap', hopen⟩ | ⟨y', more, hgap', hy'⟩
      · -- at the end of the text nothing follows
        rw [Bool.and_eq_true, List.isEmpty_iff] at hopen
        obtain rfl := hnil.2 hopen.2
        obtain rfl : trailing' = [] := hnext'.trans hgap'
        simp [hrest hopen.1] at hy
      · rcases mem_nextGap_or hy with hmem | ⟨hnone, -⟩
        · rw [hnext', hgap'] at hmem
          obtain rfl : y' = y := by simpa using hmem
          simp [Chunk.meets, hy']
        · simp [hnext', hgap'] at hnone
  · refine ⟨l, ls, trailing, rfl, rfl, ⟨⟨hl, fun hdirective => ?_, h.grammatical⟩, ?_⟩, rfl⟩
    · exact hends.breaksLine_or hl hgap hdirective
    · rw [ownAll_cons, List.append_assoc, List.append_assoc]
      refine hlead.written_append (Written.append_iff.2 ⟨hw, h.written, fun z hz => ?_⟩)
      obtain rfl := Option.some.inj (hx.symm.trans hz)
      exact hends.meets hgap hrest hx ht hlex fun text htext => hcomment ⟨text, htext⟩

/-- Separated statements have the text of legible ones, which say the same. -/
theorem SeparatedAll.exists_legible (h : SeparatedAll last trailing ls) (hw : Written rest)
    (hrest : last = true → rest = []) :
    ∃ ls' trailing', textOf (ownAll ls' ++ trailing') = textOf (ownAll ls ++ trailing) ∧
      shapes ls' = shapes ls ∧ LegibleAll last trailing' rest ls' ∧
      nextGap trailing' ls' = nextGap trailing ls ∧ ls'.isEmpty = ls.isEmpty := by
  induction ls with
  | nil =>
    have hgap : Gap trailing := h
    exact ⟨[], trailing, rfl, rfl, ⟨hgap.all_isGap, hgap.written_append hw⟩, rfl, rfl⟩
  | cons l ls ih =>
    obtain ⟨hlead, hl, hown, hends, hls⟩ := h
    obtain ⟨ls', trailing', htext, hshapes, hlegible, hnext, hempty⟩ := ih hls
    rw [← hnext, ← hempty] at hends
    obtain ⟨l', ls'', trailing'', htext', hshapes', hlegible', hgap⟩ :=
      hlegible.exists_cons hrest (hnext ▸ hls.gap_nextGap) hlead hl hown hends
    refine ⟨l' :: ls'', trailing'', ?_, ?_, hlegible', hgap, rfl⟩
    · rw [htext']
      simp only [textOf_append] at htext
      simp only [ownAll_cons, textOf_append, List.append_assoc, htext]
    · rw [hshapes', shapes, shapes, hshapes]

/-! ## Legible statements are separated -/

/-- What comes after a gap that is empty is a token. -/
theorem GrammaticalAll.isGap_head? (hls : GrammaticalAll last trailing ls)
    (hrest : ∀ y ∈ rest.head?, y.isGap = false) (hnil : nextGap trailing ls = []) :
    ∀ y ∈ (ownAll ls ++ (trailing ++ rest)).head?, y.isGap = false := by
  intro y hy
  cases ls with
  | nil =>
    obtain rfl : trailing = [] := hnil
    exact hrest y hy
  | cons m ms =>
    obtain ⟨k, ks, hown, hk⟩ := m.exists_own_eq_cons
    rw [nextGap] at hnil
    obtain rfl : k = y := by simpa [hnil, hown] using hy
    exact hk

theorem endsComment_of_newline {y : Chunk} {more : List Chunk} (hlex : y.IsLexical)
    (hy : y.token = some .newline) : endsComment last (textOf (y :: more)) = true := by
  cases hlex with
  | newline hbr => rcases hbr with rfl | rfl <;> simp [endsComment]
  | _ => simp at hy

/-- What the next gap starts with comes right after the statement. -/
theorem mem_head?_of_nextGap {y : Chunk} {more : List Chunk}
    (hnext : nextGap trailing ls = y :: more) : y ∈ (ownAll ls ++ (trailing ++ rest)).head? := by
  cases ls <;> simp_all [nextGap]

theorem GrammaticalAll.gap_nextGap (hls : GrammaticalAll last trailing ls)
    (hw : Written (ownAll ls ++ (trailing ++ rest))) : Gap (nextGap trailing ls) := by
  cases ls with
  | nil => exact ⟨hls, fun k hk => hw.isLexical k (by simp [show k ∈ trailing from hk])⟩
  | cons m ms =>
    exact ⟨hls.1.all_isGap, fun k hk => hw.isLexical k (by simp [show k ∈ m.gap from hk])⟩

/-- Where only a line break may follow, the next gap ends a comment. -/
theorem GrammaticalAll.endsComment_nextGap (hls : GrammaticalAll last trailing ls)
    (hgap : Gap (nextGap trailing ls)) (hlast : rest = [] → last = true)
    (hrest : ∀ y ∈ rest.head?, y.isGap = false)
    (hnewline : ∀ y ∈ (ownAll ls ++ (trailing ++ rest)).head?, y.token = some .newline) :
    endsComment (last && ls.isEmpty) (textOf (nextGap trailing ls)) = true := by
  cases hnext : nextGap trailing ls with
  | cons y more =>
    rw [hnext] at hgap
    exact endsComment_of_newline (gap_cons.1 hgap).1.2 (hnewline y (mem_head?_of_nextGap hnext))
  | nil =>
    -- a token that follows without a gap is no line break, so nothing follows
    have hnone : (ownAll ls ++ (trailing ++ rest)).head? = none := by
      cases hhead : (ownAll ls ++ (trailing ++ rest)).head? with
      | none => rfl
      | some y =>
        have hy := hls.isGap_head? hrest hnext y hhead
        simp [Chunk.isGap, hnewline y hhead] at hy
    rw [List.head?_eq_none_iff, List.append_eq_nil_iff, List.append_eq_nil_iff] at hnone
    have hempty : ls = [] := by
      cases ls with
      | nil => rfl
      | cons m ms =>
        obtain ⟨k, ks, hm, -⟩ := m.exists_own_eq_cons
        simp [hm] at hnone
    simp [endsComment, hempty, hlast hnone.2.2]

/-- Where no line break may follow, the next gap does not start with one. -/
theorem startsWithBreak_nextGap (hgap : Gap (nextGap trailing ls))
    (hbreak : ∀ y ∈ (ownAll ls ++ (trailing ++ rest)).head?, y.token ≠ some .newline) :
    startsWithBreak (textOf (nextGap trailing ls)) = false := by
  cases hnext : nextGap trailing ls with
  | nil => rfl
  | cons y more =>
    rw [hnext] at hgap
    rw [Bool.eq_false_iff, textOf_cons, Ne, (gap_cons.1 hgap).1.2.startsWithBreak_iff]
    exact hbreak y (mem_head?_of_nextGap hnext)

/-- A statement in its place ends before the next gap. -/
theorem LegibleAll.endsBefore (h : LegibleAll last trailing rest (l :: ls))
    (hlast : rest = [] → last = true) (hrest : ∀ y ∈ rest.head?, y.isGap = false) :
    l.EndsBefore (last && ls.isEmpty) (nextGap trailing ls) := by
  obtain ⟨⟨hl, hend, hls⟩, hw⟩ := h
  rw [ownAll_cons, List.append_assoc, List.append_assoc] at hw
  obtain ⟨-, hw, -⟩ := Written.append_iff.1 hw
  obtain ⟨hown, hlater, hseam⟩ := Written.append_iff.1 hw
  have hgap := hls.gap_nextGap hlater
  intro x hx t ht
  have hmeets := hseam x hx
  by_cases hcomment : ∃ text, t = .comment text
  · obtain ⟨text, rfl⟩ := hcomment
    refine hls.endsComment_nextGap hgap hlast hrest fun y hy => ?_
    have hnewline := hmeets y hy
    rw [Chunk.meets, ht] at hnewline
    exact beq_iff_eq.1 hnewline
  by_cases hclose : ∃ name, t = .closeTag name
  · obtain ⟨name, rfl⟩ := hclose
    rfl
  -- any other token is the end of a directive, whose line ends
  have hdirective := isDirective_of_getLast? hx ht hcomment hclose
  have hline : ((last && ls.isEmpty) || endsLine (textOf (nextGap trailing ls))) = true := by
    rw [endsLine_textOf (by simpa using hgap.written_append .nil)]
    simpa [or_comm] using hend hdirective
  cases t with
  | comment text => exact absurd ⟨text, rfl⟩ hcomment
  | closeTag name => rfl
  | word text =>
    -- a backslash at the end of the word would take a line break away
    rw [Token.endsBefore, hline, Bool.true_and, Bool.not_eq_true', Bool.and_eq_false_imp]
    intro hback
    obtain rfl := (hown.isLexical x (List.mem_of_getLast? hx)).eq_word ht
    have hnot : ∀ y ∈ (ownAll ls ++ (trailing ++ rest)).head?, y.token ≠ some .newline := by
      intro y hy hbreak
      have hjoin := hmeets y hy
      simp [Chunk.meets, hbreak, beq_iff_eq.1 hback] at hjoin
    exact startsWithBreak_nextGap hgap hnot
  | _ => exact hline

/-- Statements in their places are separated. -/
theorem LegibleAll.separatedAll (h : LegibleAll last trailing rest ls)
    (hlast : rest = [] → last = true) (hrest : ∀ y ∈ rest.head?, y.isGap = false) :
    SeparatedAll last trailing ls := by
  induction ls with
  | nil =>
    exact ⟨h.grammatical, fun k hk => h.written.isLexical k (by simp [hk])⟩
  | cons l ls ih =>
    have hends := h.endsBefore hlast hrest
    obtain ⟨⟨hl, -, hls⟩, hw⟩ := h
    rw [ownAll_cons, List.append_assoc, List.append_assoc] at hw
    obtain ⟨hgap, hw, -⟩ := Written.append_iff.1 hw
    obtain ⟨hown, hlater, -⟩ := Written.append_iff.1 hw
    exact ⟨⟨hl.all_isGap, hgap.isLexical⟩, hl, hown, hends, ih ⟨hls, hlater⟩⟩

/-! ## Rows of statements -/

/-- The statements with the gaps that rendering puts before them. -/
def renewGaps (before : Ending) : List Layout → List Layout
  | [] => []
  | l :: ls => l.withGap (renewedGap before l.gap) :: renewGaps .midLine ls

@[simp]
theorem length_renewGaps (before : Ending) (ls : List Layout) :
    (renewGaps before ls).length = ls.length := by
  induction ls generalizing before with
  | nil => rfl
  | cons l ls ih => rw [renewGaps, List.length_cons, List.length_cons, ih]

theorem gap_renewedGap (h : Gap gap) (before : Ending) : Gap (renewedGap before gap) := by
  refine ⟨renewedGap_all_isGap h.all_isGap before, fun k hk => ?_⟩
  unfold renewedGap at hk
  split at hk
  · rcases List.mem_cons.1 hk with rfl | hk
    · exact .newline (.inl rfl)
    · exact h.isLexical k hk
  · exact h.isLexical k hk

/-- Where the line goes on, a gap that ends a statement has a line break already. -/
theorem EndsBefore.renewed (h : l.EndsBefore false gap) (hgap : Gap gap) (before : Ending) :
    l.EndsBefore false (renewedGap before gap) := by
  intro x hx t ht
  have hends := h x hx t ht
  have hendsLine := endsLine_textOf (by simpa using hgap.written_append .nil)
  by_cases hclose : ∃ name, t = .closeTag name
  · obtain ⟨name, rfl⟩ := hclose
    rfl
  · have hbreak : '\n' ∈ textOf gap := by
      cases t with
      | comment text => simpa [Token.endsBefore, endsComment] using (Bool.and_eq_true_iff.1 hends).2
      | closeTag name => exact absurd ⟨name, rfl⟩ hclose
      | word text =>
        refine mem_textOf_of_breaksLine ?_ hgap.isLexical
        rw [← hendsLine]
        exact (Bool.and_eq_true_iff.1 hends).1
      | _ =>
        refine mem_textOf_of_breaksLine ?_ hgap.isLexical
        rw [← hendsLine]
        exact hends
    rw [renewedGap, if_neg (by simp [hbreak])]
    exact hends

theorem SeparatedAll.renew (h : SeparatedAll last trailing ls) (before : Ending) :
    SeparatedAll last trailing (renewGaps before ls) := by
  induction ls generalizing before with
  | nil => exact h
  | cons l ls ih =>
    obtain ⟨hgap, hl, hown, hends, hls⟩ := h
    rw [renewGaps, SeparatedAll, withGap_gap, withGap_own]
    refine ⟨gap_renewedGap hgap before, hl.withGap (renewedGap_all_isGap hgap.all_isGap before),
      hown, ?_, ih hls .midLine⟩
    cases ls with
    | nil => simpa [EndsBefore, renewGaps] using hends
    | cons m ms =>
      have hrenewed := EndsBefore.renewed (by simpa [nextGap] using hends) hls.1 .midLine
      simpa [EndsBefore, renewGaps, nextGap] using hrenewed

theorem renewGaps_append (before : Ending) (as bs : List Layout) :
    renewGaps before (as ++ bs) =
      renewGaps before as ++ renewGaps (if as.isEmpty then before else .midLine) bs := by
  induction as generalizing before with
  | nil => simp [renewGaps]
  | cons l as ih =>
    rw [List.cons_append, renewGaps, renewGaps, ih, List.cons_append]
    simp

theorem exists_of_mem_getLast?_renewGaps {before : Ending}
    (h : l ∈ (renewGaps before ls).getLast?) : ∃ m ∈ ls.getLast?, l.own = m.own := by
  induction ls generalizing before with
  | nil => simp [renewGaps] at h
  | cons m ms ih =>
    rw [renewGaps, List.getLast?_cons] at h
    rw [List.getLast?_cons]
    cases ms with
    | nil =>
      obtain rfl : m.withGap (renewedGap before m.gap) = l := by simpa [renewGaps] using h
      exact ⟨m, rfl, withGap_own⟩
    | cons n ns =>
      rw [renewGaps, List.getLast?_cons, Option.getD_some, ← List.getLast?_cons, ← renewGaps] at h
      obtain ⟨m', hm', hown⟩ := @ih .midLine h
      exact ⟨m', by rw [Option.mem_def.1 hm']; rfl, hown⟩

/-- Two rows of statements are separated when each is, the first one before the gap that the second
one starts with. -/
theorem separatedAll_append : SeparatedAll last trailing (as ++ bs) ↔
    SeparatedAll (last && bs.isEmpty) (nextGap trailing bs) as ∧ SeparatedAll last trailing bs := by
  induction as with
  | nil => exact ⟨fun h => ⟨SeparatedAll.gap_nextGap h, h⟩, And.right⟩
  | cons l as ih =>
    have hnext : nextGap trailing (as ++ bs) = nextGap (nextGap trailing bs) as := by
      cases as <;> rfl
    have hempty : (last && (as ++ bs).isEmpty) = (last && bs.isEmpty && as.isEmpty) := by
      cases as <;> simp
    rw [List.cons_append, SeparatedAll, SeparatedAll, ih, hnext, hempty]
    tauto

/-- Another gap may come after statements if the last of them ends before it. -/
theorem SeparatedAll.before_gap {last' : Bool} {trailing' : List Chunk}
    (h : SeparatedAll last trailing ls) (hgap : Gap trailing')
    (hends : ∀ l ∈ ls.getLast?, l.EndsBefore last' trailing') :
    SeparatedAll last' trailing' ls := by
  induction ls with
  | nil => exact hgap
  | cons l ls ih =>
    obtain ⟨hlead, hl, hown, hend, hls⟩ := h
    refine ⟨hlead, hl, hown, ?_, ih hls fun m hm => hends m ?_⟩
    · cases ls with
      | nil => simpa [nextGap] using hends l rfl
      | cons m ms => simpa [nextGap] using hend
    · rw [List.getLast?_cons, Option.mem_def.1 hm]
      rfl

end Layout

end HttpdConf
