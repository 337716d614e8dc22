import HttpdConf.Proofs.UniqueReadings

/-!
# Statements that are found again

A statement is rendered before a gap, and in the text there is a statement in its place that says
the same. Then it ends before the gap. There are three ways not to: a comment takes in what follows
on its line, and its text shows it; the line of a directive goes on, and then it has more arguments;
the last word of a directive loses a backslash to a line break. In the last case the directive may
make up for it with the first word of the next line, if that is a single backslash: it says what it
did, but there is one statement less.

## Main definitions

* `Chunk.said`: what a chunk adds to the arguments of a directive
* `Layout.Continues`: a text goes on with some statements, up to a close tag or its end
* `Layout.AfterBackslash`: a directive that is a single backslash stands before some statements

## Main results

* `Layout.Continues.length_eq`: every reading of such a text has as many statements
* `Layout.afterBackslash_of_lost`: what a directive takes in to make up for a lost backslash
* `Layout.Continues.endsBefore`: a statement that is found again ends before the next gap
* `Layout.SeparatedAll.exists_aligned`: what comes after separated statements is found in its place
-/

namespace HttpdConf

/-! ## What arguments and comments say -/

theorem append_inj_of_stops {α : Type} {p : α → Bool} {as bs xs ys : List α}
    (has : as.all p = true) (hbs : bs.all p = true) (hxs : ∀ x ∈ xs.head?, p x = false)
    (hys : ∀ y ∈ ys.head?, p y = false) (h : as ++ xs = bs ++ ys) : as = bs ∧ xs = ys := by
  have hsame : as = bs := by
    rw [← takeWhile_append_of_stops (List.all_eq_true.1 has) hxs, h,
      takeWhile_append_of_stops (List.all_eq_true.1 hbs) hys]
  subst hsame
  exact ⟨rfl, List.append_cancel_left h⟩

theorem filter_dropWhile {α : Type} {p q : α → Bool} (h : ∀ a, p a = true → q a = false)
    (as : List α) : (as.dropWhile p).filter q = as.filter q := by
  induction as with
  | nil => rfl
  | cons a as ih =>
    by_cases ha : p a = true
    · rw [List.dropWhile_cons_of_pos ha, ih, List.filter_cons_of_neg (by simp [h a ha])]
    · rw [List.dropWhile_cons_of_neg ha]

theorem Text.flatten_words (cs : List Char) :
    (words cs).flatten = cs.filter fun c => !isBlank c := by
  fun_induction words cs with
  | case1 => rfl
  | case2 c hc => simp [hc]
  | case3 c hc => simp [hc]
  | case4 c d cs hc ih => simp [hc, ih]
  | case5 c d cs hc hd ih => simp_all
  | case6 c d cs hc hd hnil ih => simp_all
  | case7 c d cs hc hd w ws hcons ih => simp_all

/-- The letters of a comment are those of its text, but for `#` signs and blanks. -/
theorem filter_commentText (text : String) :
    (commentText text).toList.filter (fun c => !Text.isBlank c && c != '#') =
      text.toList.filter fun c => !Text.isBlank c && c != '#' := by
  have hblank : ∀ c, Text.isBlank c = true → (!Text.isBlank c && c != '#') = false := by
    intro c hc
    simp [hc]
  rw [commentText, String.toList_ofList, Text.trim, Text.trimEnd, List.filter_reverse,
    filter_dropWhile hblank, List.filter_reverse, List.reverse_reverse, filter_dropWhile hblank,
    filter_dropWhile (by simp)]

/-- What a chunk adds to the arguments of a directive, without the bounds between them. -/
def Chunk.said (k : Chunk) : List Char :=
  ((k.token.bind Token.argumentWords?).getD []).flatMap String.toList

theorem flatMap_extendArguments (joined : Bool) (arguments words : List String) :
    (extendArguments joined arguments words).flatMap String.toList =
      arguments.flatMap String.toList ++ words.flatMap String.toList := by
  unfold extendArguments
  split
  · rename_i last first more hlast
    obtain ⟨before, rfl⟩ := List.getLast?_eq_some_iff.1 hlast
    simp
  · simp

theorem flatMap_gatherArguments (touching : Bool) (arguments : List String) (ks : List Chunk) :
    (gatherArguments touching arguments ks).flatMap String.toList =
      arguments.flatMap String.toList ++ ks.flatMap Chunk.said := by
  induction ks generalizing touching arguments with
  | nil => simp [gatherArguments]
  | cons k ks ih =>
    rw [gatherArguments]
    cases hwords : k.token.bind Token.argumentWords? with
    | none => simp [ih, Chunk.said, hwords]
    | some words => simp [ih, Chunk.said, hwords, flatMap_extendArguments]

theorem Chunk.said_of_none {k : Chunk} (h : k.token = none) : k.said = [] := by
  simp [said, h]

theorem Chunk.said_comment (text : String) :
    (Chunk.comment text).said = text.toList.filter fun c => !Text.isBlank c := by
  rw [← Text.flatten_words]
  simp [said, Token.argumentWords?, List.flatMap_map]

@[simp]
theorem Chunk.said_word (text : String) : (Chunk.word text).said = text.toList := by
  simp [said, Token.argumentWords?]

/-- Every token that may be an argument says something. -/
theorem Chunk.said_ne_nil {k : Chunk} (hlex : k.IsLexical) (hk : k.isArgument = true)
    (htoken : k.token.isSome = true) : k.said ≠ [] := by
  cases hlex with
  | blank => simp at htoken
  | join => simp at htoken
  | newline => simp [isArgument, Token.argumentWords?] at hk
  | closeTag => simp [isArgument, Token.argumentWords?] at hk
  | comment => simp [said_comment, Text.isBlank]
  | _ => simp [said, Token.argumentWords?]

/-- What says a backslash is a word. -/
theorem Chunk.eq_word_of_said {k : Chunk} (hlex : k.IsLexical) (hsaid : k.said = ['\\']) :
    k = .word "\\" := by
  cases hlex with
  | comment => simp [said_comment, Text.isBlank] at hsaid
  | word =>
    rw [said_word] at hsaid
    exact congrArg Chunk.word (String.toList_inj.1 hsaid)
  | _ => simp [said, Token.argumentWords?] at hsaid

/-! ## Where chunks end -/

namespace Chunk

variable {x y : Chunk} {cs : List Char}

/-- Every chunk but a comment ends before a close tag. -/
theorem meets_closeTag (hx : ∀ text, x.token ≠ some (.comment text)) (name : String)
    (blanks : List Char) : x.meets (.closeTag name blanks) = true := by
  unfold meets
  split
  · exact absurd ‹_› (hx _)
  all_goals simp [startsTag]
  all_goals decide

/-- What ends before a word or a comment ends before every text that starts like it. -/
theorem stops_append_of_meets (hy : y.IsLexical) (h : x.meets y = true)
    (htoken : ∃ text, y.token = some (.word text) ∨ y.token = some (.comment text))
    (hslash : y.text ≠ ['/']) (cs : List Char) : x.Stops (y.text ++ cs) := by
  obtain ⟨c, more, hcons⟩ := List.exists_cons_of_ne_nil hy.text_ne_nil
  obtain ⟨text, htoken⟩ := htoken
  unfold meets at h
  unfold Stops
  split at h
  · rcases htoken with htoken | htoken <;> simp [htoken] at h
  · rcases htoken with htoken | htoken <;> simp [htoken] at h
  · rename_i hx
    simpa [hx, hcons] using h
  · rw [Bool.not_eq_true', hcons] at h
    simp only [hcons, List.cons_append]
    -- two letters decide whether there is a tag
    cases more with
    | nil =>
      have hc : c ≠ '/' := by
        rintro rfl
        exact hslash hcons
      rw [startsTag_cons hc] at h ⊢
      exact h
    | cons d more =>
      by_cases hc : c = '/'
      · simpa [hc, startsTag] using h
      · rw [startsTag_cons hc] at h ⊢
        exact h
  · trivial

/-- A comment goes on up to the end of the line. -/
theorem exists_comment_of_textOf {text : String} {zs : List Chunk}
    (h : (Chunk.comment text).IsLexical) (hz : Written zs) (htext : textOf zs = text.toList ++ cs) :
    ∃ more zs', zs = .comment (text ++ String.ofList more) :: zs' ∧ cs = more ++ textOf zs' ∧
      (∀ c ∈ more, c ≠ '\r' ∧ c ≠ '\n') ∧ ∀ y ∈ zs'.head?, y.token = some .newline := by
  obtain ⟨body, rfl, hbody⟩ := exists_body_of_isLexical h
  rw [String.toList_ofList, List.cons_append] at htext
  obtain ⟨z, zs, rfl⟩ : ∃ z zs', zs = z :: zs' := by
    cases zs with
    | nil => simp at htext
    | cons z zs => exact ⟨z, zs, rfl⟩
  obtain ⟨hlex, hzs, hseam⟩ := Written.cons_iff.1 hz
  have hstops := hz.stops
  rw [textOf_cons] at htext
  cases hlex with
  | @comment body' hbody' =>
    rw [comment_text, String.toList_ofList, List.cons_append] at htext
    obtain ⟨-, htext⟩ := List.cons.inj htext
    have hnewline : ∀ y ∈ zs.head?, y.token = some .newline := fun y hy => by
      simpa [meets] using hseam y hy
    -- neither body has a line break, and the longer one ends before one
    obtain ⟨more, rfl, rfl⟩ : ∃ more, body' = body ++ more ∧ cs = more ++ textOf zs := by
      rcases List.append_eq_append_iff.1 htext with ⟨more, hmore, hcs⟩ | ⟨more, hmore, hcs⟩
      · cases more with
        | nil => exact ⟨[], by simpa using hmore.symm, by simpa using hcs.symm⟩
        | cons c more =>
          have hc := hbody c (by simp [hmore])
          exact absurd (hstops c (by simp [hcs])) (by simp [hc])
      · exact ⟨more, hmore, hcs⟩
    refine ⟨more, zs, by rw [← String.ofList_append, List.cons_append], rfl, ?_, hnewline⟩
    exact fun c hc => hbody' c (by simp [hc])
  | blank hc =>
    obtain ⟨rfl, -⟩ := List.cons.inj htext
    exact absurd hc (by decide)
  | newline hbr => rcases hbr with rfl | rfl <;> simp at htext
  | word hc hhash _ =>
    rw [word_text, String.toList_ofList, List.cons_append] at htext
    exact absurd (List.cons.inj htext).1 hhash
  | _ => simp at htext

end Chunk

/-! ## Comments that take in nothing -/

theorem mem_of_append_eq {u v more rest : List Char} {c : Char}
    (hbreak : ∀ d ∈ u ++ [c], d ≠ '\r' ∧ d ≠ '\n') (hrest : ∀ d ∈ rest.head?, d = '\r' ∨ d = '\n')
    (h : u ++ c :: v = more ++ rest) : c ∈ more := by
  have h' : (u ++ [c]) ++ v = more ++ rest := by simpa using h
  rcases List.append_eq_append_iff.1 h' with ⟨ds, hmore, -⟩ | ⟨ds, hu, hv⟩
  · simp [hmore]
  · cases ds with
    | nil => simp [show more = u ++ [c] by simpa using hu.symm]
    | cons d ds =>
      have hd := hbreak d (by simp [hu])
      exact absurd (hrest d (by simp [hv])) (by simp [hd])

/-- A comment that takes in only blanks and `#` signs ends before the gap. -/
theorem Gap.endsComment_of_taken {gap : List Chunk} (h : Gap gap) {last : Bool}
    {more rest tail : List Char}
    (hmore : ∀ c ∈ more, Text.isBlank c = true ∨ c = '#')
    (hrest : ∀ c ∈ rest.head?, c = '\r' ∨ c = '\n') (htext : textOf gap ++ tail = more ++ rest)
    (htail : '\n' ∈ textOf gap ∨ last = true ∨ tail.head? = some '<') :
    endsComment last (textOf gap) = true := by
  obtain ⟨bs, ks, rfl, hbs, hks, hhead⟩ := h.exists_blanks
  have hblank : ∀ b ∈ bs, b ≠ '\r' ∧ b ≠ '\n' ∧ b ≠ '\\' := by
    intro b hb
    have hsep := hbs b hb
    refine ⟨?_, ?_, ?_⟩ <;> rintro rfl <;> exact absurd hsep (by decide)
  rw [textOf_append, textOf_blanks, List.append_assoc] at htext
  rw [textOf_append, textOf_blanks] at htail ⊢
  cases ks with
  | nil =>
    rw [textOf_nil, List.append_nil] at htail ⊢
    have htake : '\\' ∉ bs.takeWhile (· != '\n') := fun hmem =>
      (hblank _ ((List.takeWhile_sublist _).subset hmem)).2.2 rfl
    rcases htail with hmem | rfl | hlt
    · exact absurd rfl (hblank _ hmem).2.1
    · simpa [endsComment] using htake
    · -- a close tag would become part of the comment
      obtain ⟨v, rfl⟩ : ∃ v, tail = '<' :: v := by
        cases tail with
        | nil => simp at hlt
        | cons c v => exact ⟨v, by simpa using hlt⟩
      have hmem := mem_of_append_eq (fun d hd => ?_) hrest (by simpa using htext)
      · exact absurd (hmore _ hmem) (by decide)
      · rcases List.mem_append.1 hd with hd | hd
        · exact ⟨(hblank d hd).1, (hblank d hd).2.1⟩
        · rw [List.mem_singleton.1 hd]
          decide
  | cons y ks =>
    rcases hhead y rfl with hy | ⟨br, hbr, rfl⟩
    · have hends : endsComment last (textOf (y :: ks)) = true :=
        Layout.endsComment_of_newline (gap_cons.1 hks).1.2 hy
      have hpos : ∀ b ∈ bs, (b != '\n') = true := fun b hb => by simpa using (hblank b hb).2.1
      have hnot : '\\' ∉ bs := fun hmem => (hblank _ hmem).2.2 rfl
      simp only [endsComment, List.contains_eq_mem, Bool.and_eq_true, Bool.not_eq_true',
        decide_eq_false_iff_not, Bool.or_eq_true, decide_eq_true_eq] at hends ⊢
      rw [List.takeWhile_append_of_pos hpos]
      simp only [List.mem_append, not_or]
      exact ⟨⟨hnot, hends.1⟩, hends.2.imp id .inr⟩
    · -- a joined line would leave its backslash in the comment
      have hmem := mem_of_append_eq (c := '\\') (u := bs) (fun d hd => ?_) hrest
        (by simpa using htext)
      · exact absurd (hmore _ hmem) (by decide)
      · rcases List.mem_append.1 hd with hd | hd
        · exact ⟨(hblank d hd).1, (hblank d hd).2.1⟩
        · rw [List.mem_singleton.1 hd]
          decide

/-! ## The same statement in the same place -/

namespace Layout

variable {l l' : Layout} {bs bs' : List Layout} {trailing trailing' rest rest' zs : List Chunk}
  {last : Bool} {cs : List Char}

theorem Closes.isGap_head? (h : Closes last rest) : ∀ y ∈ rest.head?, y.isGap = false := by
  cases h with
  | file => simp
  | block => simp [Chunk.isGap]

theorem Closes.eq_true (h : Closes last rest) (hnil : rest = []) : last = true := by
  cases h with
  | file => rfl
  | block => simp at hnil

/-- The next gap goes up to the next token. -/
theorem GrammaticalAll.exists_nextGap_append (h : GrammaticalAll last trailing bs)
    (hrest : ∀ y ∈ rest.head?, y.isGap = false) :
    (nextGap trailing bs).all Chunk.isGap = true ∧
      ∃ more, ownAll bs ++ (trailing ++ rest) = nextGap trailing bs ++ more ∧
        ∀ y ∈ more.head?, y.isGap = false := by
  cases bs with
  | nil => exact ⟨h, rest, rfl, hrest⟩
  | cons l bs =>
    obtain ⟨k, ks, hown, hk⟩ := l.exists_own_eq_cons
    refine ⟨h.1.all_isGap, l.own ++ (ownAll bs ++ (trailing ++ rest)), ?_, ?_⟩
    · simp [nextGap]
    · simp [hown, hk]

theorem GrammaticalAll.nextGap_eq (h : GrammaticalAll last trailing bs)
    (h' : GrammaticalAll last trailing' bs') (hrest : ∀ y ∈ rest.head?, y.isGap = false)
    (hrest' : ∀ y ∈ rest'.head?, y.isGap = false)
    (heq : ownAll bs ++ (trailing ++ rest) = ownAll bs' ++ (trailing' ++ rest')) :
    nextGap trailing bs = nextGap trailing' bs' := by
  obtain ⟨hgap, more, hmore, hhead⟩ := h.exists_nextGap_append hrest
  obtain ⟨hgap', more', hmore', hhead'⟩ := h'.exists_nextGap_append hrest'
  rw [hmore, hmore'] at heq
  exact (append_inj_of_stops hgap hgap' hhead hhead' heq).1

/-- The line of a directive goes on with all arguments that follow. -/
theorem GrammaticalAll.exists_arguments {gap arguments arguments' more : List Chunk} {name : String}
    (h : GrammaticalAll last trailing (.directive gap name arguments :: bs))
    (hrest : Closes last rest) (hmore : arguments'.all Chunk.isArgument = true)
    (hlast : ∀ k ∈ arguments'.getLast?, k.token.isSome = true)
    (heq : arguments ++ (ownAll bs ++ (trailing ++ rest)) = arguments' ++ more) :
    ∃ ks, arguments = arguments' ++ ks ∧ more = ks ++ (ownAll bs ++ (trailing ++ rest)) := by
  obtain ⟨-, hend, hbs⟩ := h
  rcases List.append_eq_append_iff.1 heq with ⟨ks, hks, hrest'⟩ | ⟨ks, hks, hmore'⟩
  · rcases ks.eq_nil_or_concat with rfl | ⟨others, k, rfl⟩
    · exact ⟨[], by simpa using hks.symm, by simpa using hrest'.symm⟩
    -- an argument is left over, so the gap after the directive does not end its line
    rw [List.concat_eq_append] at hks hrest'
    rw [hks, List.all_append, Bool.and_eq_true] at hmore
    have hk : k.isGap = false := by
      have htoken := hlast k (by simp [hks])
      have hargument := List.all_eq_true.1 hmore.2 k (by simp)
      cases ht : k.token with
      | none => simp [ht] at htoken
      | some t =>
        cases t <;> simp_all [Chunk.isGap, Chunk.isArgument, Token.argumentWords?]
    obtain ⟨hgap, tail, htail, hhead⟩ := hbs.exists_nextGap_append hrest.isGap_head?
    have hbreak : breaksLine (nextGap trailing bs) = false := by
      have hsub : ∀ x ∈ nextGap trailing bs, x ∈ others := by
        rw [htail, List.append_assoc, List.singleton_append] at hrest'
        rcases List.append_eq_append_iff.1 hrest' with ⟨as, has, -⟩ | ⟨as, has, hcons⟩
        · exact fun x hx => by simp [has, hx]
        · cases as with
          | nil => exact fun x hx => by simpa [has] using hx
          | cons a as =>
            obtain ⟨rfl, -⟩ := List.cons.inj hcons
            simp [has, hk] at hgap
      rw [breaksLine, List.any_eq_false]
      intro x hx hnewline
      have hargument := List.all_eq_true.1 hmore.2 x (by simp [hsub x hx])
      simp [Chunk.isArgument, beq_iff_eq.1 hnewline, Token.argumentWords?] at hargument
    rcases hend rfl with hends | ⟨rfl, rfl⟩
    · simp [hbreak] at hends
    · cases hrest
      have hall : trailing.all Chunk.isGap = true := hbs
      have hmem : k ∈ trailing := by
        rw [ownAll_nil, List.nil_append, List.append_nil] at hrest'
        simp [hrest']
      simp [List.all_eq_true.1 hall k hmem] at hk
  · exact ⟨ks, hks, hmore'⟩

/-- The text goes on with some statements, up to a close tag or its end. -/
def Continues (last : Bool) (trailing : List Chunk) (bs : List Layout) (cs : List Char) : Prop :=
  ∃ closing after, LegibleAll last trailing closing bs ∧
    (closing = [] ∧ last = true ∧ after = [] ∨
      (∃ name blanks, closing = [.closeTag name blanks]) ∧ last = false) ∧
    cs = textOf (ownAll bs ++ (trailing ++ closing)) ++ after

namespace Continues

/-- What ends before the next gap ends before the text. -/
theorem stops (h : Continues last trailing bs cs) {x : Chunk} (hx : x.IsLexical)
    (hcomment : ∀ text, x.token ≠ some (.comment text))
    (hmeets : ∀ y ∈ (nextGap trailing bs).head?, x.meets y = true)
    (hgap : nextGap trailing bs = [] → bs = []) : x.Stops cs := by
  obtain ⟨closing, after, hlegible, hclosing, rfl⟩ := h
  have hw : Written (x :: (ownAll bs ++ (trailing ++ closing))) := by
    refine Written.cons_iff.2 ⟨hx, hlegible.written, fun y hy => ?_⟩
    rcases mem_nextGap_or hy with hmem | ⟨hnil, hmem⟩
    · exact hmeets y hmem
    · rcases hclosing with ⟨rfl, -⟩ | ⟨⟨name, blanks, rfl⟩, -⟩
      · simp at hmem
        exact absurd (hgap hnil) hmem
      · obtain rfl : Chunk.closeTag name blanks = y := by simpa using hmem (hgap hnil)
        exact Chunk.meets_closeTag hcomment name blanks
  refine hw.stops_append fun y hy => ?_
  rcases hclosing with ⟨-, -, rfl⟩ | ⟨⟨name, blanks, rfl⟩, -⟩
  · exact y.stops_nil
  · obtain rfl : Chunk.closeTag name blanks = y := by
      simpa [List.getLast?_cons, List.getLast?_append] using hy
    trivial

/-- The statements are found in every reading of the text. -/
theorem exists_eq (h : Continues last trailing bs cs) (hz : Written zs) (htext : textOf zs = cs) :
    ∃ rest, Closes last rest ∧ zs = ownAll bs ++ (trailing ++ rest) := by
  obtain ⟨closing, after, hlegible, hclosing, rfl⟩ := h
  rcases hclosing with ⟨rfl, rfl, rfl⟩ | ⟨⟨name, blanks, rfl⟩, rfl⟩
  · obtain ⟨more, rfl, hmore⟩ := hlegible.written.exists_append hz htext fun y _ => y.stops_nil
    obtain rfl : more = [] := by
      cases more with
      | nil => rfl
      | cons k more =>
        have hk := (Written.append_iff.1 hz).2.1.isLexical k (by simp)
        simp [hk.text_ne_nil] at hmore
    exact ⟨[], .file, by simp⟩
  · obtain ⟨more, rfl, -⟩ := hlegible.written.exists_append hz htext fun y hy => by
      obtain rfl : Chunk.closeTag name blanks = y := by
        simpa [List.getLast?_append] using hy
      trivial
    exact ⟨.closeTag name blanks :: more, .block, by simp⟩

theorem grammatical (h : Continues last trailing bs cs) : GrammaticalAll last trailing bs := by
  obtain ⟨closing, after, hlegible, -⟩ := h
  exact hlegible.grammatical

theorem gap (h : Continues last trailing bs cs) : Gap (nextGap trailing bs) := by
  obtain ⟨closing, after, hlegible, -⟩ := h
  exact hlegible.grammatical.gap_nextGap hlegible.written

/-- The text starts with the next gap. -/
theorem exists_tail (h : Continues last trailing bs cs) :
    ∃ tail, cs = textOf (nextGap trailing bs) ++ tail ∧
      (bs = [] → last = true ∨ tail.head? = some '<') := by
  obtain ⟨closing, after, -, hclosing, rfl⟩ := h
  cases bs with
  | nil =>
    refine ⟨textOf closing ++ after, by simp [nextGap], fun _ => ?_⟩
    rcases hclosing with ⟨-, hlast, -⟩ | ⟨⟨name, blanks, rfl⟩, -⟩
    · exact .inl hlast
    · exact .inr rfl
  | cons b bs =>
    exact ⟨textOf (b.own ++ (ownAll bs ++ (trailing ++ closing))) ++ after, by simp [nextGap],
      by simp⟩

end Continues

/-- A directive with the same arguments says the same in the same order. -/
theorem said_eq_of_gatherArguments_eq {arguments arguments' : List Chunk}
    (h : gatherArguments false [] arguments' = gatherArguments false [] arguments) :
    arguments'.flatMap Chunk.said = arguments.flatMap Chunk.said := by
  simpa [flatMap_gatherArguments] using congrArg (·.flatMap String.toList) h

theorem eq_nil_of_said_eq_nil {ks : List Chunk} (hlex : ∀ k ∈ ks, k.IsLexical)
    (hks : ks.all Chunk.isArgument = true) (hlast : ∀ k ∈ ks.getLast?, k.token.isSome = true)
    (h : ks.flatMap Chunk.said = []) : ks = [] := by
  rcases ks.eq_nil_or_concat with rfl | ⟨others, k, rfl⟩
  · rfl
  · rw [List.concat_eq_append] at hlex hks hlast h
    have hk := Chunk.said_ne_nil (hlex k (by simp)) (List.all_eq_true.1 hks k (by simp))
      (hlast k (by simp))
    simp [hk] at h

/-- Where a comment stands at the end of a statement, another reading has the same comment, and
what it takes in. -/
theorem exists_taken {text : String} (hw : Written l.own)
    (hx : l.own.getLast? = some (.comment text)) (hz : Written zs)
    (htext : textOf zs = textOf l.own ++ cs) :
    ∃ before more zs', l.own = before ++ [.comment text] ∧
      zs = before ++ .comment (text ++ String.ofList more) :: zs' ∧ cs = more ++ textOf zs' ∧
      ∀ c ∈ (textOf zs').head?, c = '\r' ∨ c = '\n' := by
  obtain ⟨before, hown⟩ := List.getLast?_eq_some_iff.1 hx
  rw [hown] at hw
  obtain ⟨hbefore, hcomment, hseam⟩ := Written.append_iff.1 hw
  have hlex := hcomment.isLexical _ (List.mem_singleton_self _)
  rw [hown, textOf_append, textOf_cons, textOf_nil, List.append_nil, List.append_assoc] at htext
  obtain ⟨zs, rfl, hzs⟩ := hbefore.exists_append hz htext fun x hx => by
    refine Chunk.stops_append_of_meets hlex (hseam x hx _ rfl) ⟨text, .inr rfl⟩ ?_ cs
    obtain ⟨body, rfl, -⟩ := Chunk.exists_body_of_isLexical hlex
    simp
  obtain ⟨more, zs', rfl, rfl, -, hbreak⟩ :=
    Chunk.exists_comment_of_textOf hlex (Written.append_iff.1 hz).2.1 hzs
  refine ⟨before, more, zs', hown, rfl, rfl, ?_⟩
  cases zs' with
  | nil => simp
  | cons y zs' =>
    rw [textOf_cons]
    exact ((hz.isLexical y (by simp)).head_isBreak_iff _).2 (hbreak y rfl)

/-- What a comment takes in says nothing if the statement says the same. -/
theorem isBlank_of_taken {text : String} {before zs' : List Chunk} {more : List Char}
    (h' : GrammaticalAll last trailing' (l' :: bs')) (hrest' : Closes last rest')
    (hl : l.Grammatical) (hown : l.own = before ++ [.comment text])
    (hown' : l'.own ++ (ownAll bs' ++ (trailing' ++ rest')) =
      before ++ .comment (text ++ String.ofList more) :: zs')
    (hshape : l'.shape = l.shape) : ∀ c ∈ more, Text.isBlank c = true ∨ c = '#' := by
  cases l with
  | comment gap c =>
    obtain ⟨gap', c', rfl⟩ : ∃ gap' c', l' = .comment gap' c' := by
      cases l' <;> simp [shape] at hshape
      exact ⟨_, _, rfl⟩
    rw [own] at hown
    cases before with
    | cons => simp at hown
    | nil =>
      obtain rfl : c = text := by simpa [Chunk.comment_inj] using hown
      obtain rfl : c' = c ++ String.ofList more := Chunk.comment_inj.1 (List.cons.inj hown').1
      have htext := congrArg
        (fun s : String => s.toList.filter fun c => !Text.isBlank c && c != '#')
        (Shape.comment.inj hshape)
      simp only [filter_commentText, String.toList_append, String.toList_ofList, List.filter_append,
        List.append_right_eq_self, List.filter_eq_nil_iff] at htext
      intro d hd
      have := htext d hd
      simpa [or_iff_not_imp_left] using this
  | directive gap name arguments =>
    obtain ⟨gap', name', arguments', rfl⟩ : ∃ gap' name' arguments',
        l' = .directive gap' name' arguments' := by
      cases l' <;> simp [shape] at hshape
      exact ⟨_, _, _, rfl⟩
    rw [own] at hown hown'
    cases before with
    | nil => simp [Chunk.ext_iff] at hown
    | cons k before =>
      rw [List.cons_append] at hown hown'
      obtain ⟨-, rfl⟩ := List.cons.inj hown
      obtain ⟨-, hline⟩ := List.cons.inj hown'
      obtain ⟨-, harguments, -⟩ := hl
      have hmore : (before ++ [Chunk.comment (text ++ String.ofList more)]).all Chunk.isArgument =
          true := by
        rw [List.all_append, Bool.and_eq_true] at harguments ⊢
        exact ⟨harguments.1, by simp [Chunk.isArgument, Token.argumentWords?]⟩
      -- the line is the same up to the end of the comment
      obtain ⟨ks, rfl, -⟩ := h'.exists_arguments hrest' hmore (by simp) (by simpa using hline)
      have hsaid := said_eq_of_gatherArguments_eq (Shape.directive.inj hshape).2
      simp only [List.flatMap_append, List.flatMap_cons, List.flatMap_nil, Chunk.said_comment,
        String.toList_append, String.toList_ofList, List.filter_append, List.append_assoc,
        List.append_cancel_left_eq, List.append_nil] at hsaid
      intro d hd
      have hnil := (List.append_eq_nil_iff.1 (List.append_right_eq_self.1 hsaid)).1
      have := List.filter_eq_nil_iff.1 hnil d hd
      exact .inl (by simpa using this)
  | block gap name arguments inside trailing closing blanks =>
    have hlast := congrArg List.getLast? hown
    simp [own, List.getLast?_append, Chunk.ext_iff] at hlast

/-- Statements with the same shape are of the same kind. -/
theorem exists_directive_of_shape_eq {gap arguments : List Chunk} {name : String}
    (h : l'.shape = (directive gap name arguments).shape) :
    ∃ gap' arguments', l' = .directive gap' name arguments' ∧
      arguments'.flatMap Chunk.said = arguments.flatMap Chunk.said := by
  cases l' with
  | directive gap' name' arguments' =>
    obtain ⟨rfl, harguments⟩ := Shape.directive.inj h
    exact ⟨gap', arguments', rfl, said_eq_of_gatherArguments_eq harguments⟩
  | _ => simp [shape] at h

theorem isGap_of_own_eq {k : Chunk} {ks : List Chunk} (h : l.own = k :: ks) : k.isGap = false := by
  obtain ⟨k', ks', hown, hk⟩ := l.exists_own_eq_cons
  rwa [(List.cons.inj (h.symm.trans hown)).1]

/-- A statement starts where its gap ends. -/
theorem GrammaticalAll.own_append_eq (h : GrammaticalAll last trailing (l :: bs)) {gap : List Chunk}
    (hgap : gap.all Chunk.isGap = true) (hzs : ownAll (l :: bs) ++ (trailing ++ rest) = gap ++ zs)
    (hhead : ∀ y ∈ zs.head?, y.isGap = false) :
    l.own ++ (ownAll bs ++ (trailing ++ rest)) = zs := by
  rw [ownAll_cons, List.append_assoc, List.append_assoc] at hzs
  refine (append_inj_of_stops h.1.all_isGap hgap (fun y hy => ?_) hhead hzs).2
  obtain ⟨k, ks, hk, hkgap⟩ := l.exists_own_eq_cons
  obtain rfl : k = y := by simpa [hk] using hy
  exact hkgap

/-- A directive that is found again with the same arguments ends where it did. -/
theorem Continues.own_eq {x : Chunk} (h : Continues last trailing bs cs) (hl : l.Grammatical)
    (hw : Written l.own) (hdirective : l.isDirective = true)
    (h' : LegibleAll last trailing' rest' (l' :: bs')) (hrest' : Closes last rest')
    (htext : textOf (l'.own ++ (ownAll bs' ++ (trailing' ++ rest'))) = textOf l.own ++ cs)
    (hshape : l'.shape = l.shape) (hx : l.own.getLast? = some x) (hstops : x.Stops cs) :
    l'.own = l.own ∧ nextGap trailing' bs' = nextGap trailing bs := by
  obtain ⟨hgrammatical, hwritten⟩ := h'
  rw [ownAll_cons, List.append_assoc, List.append_assoc] at hwritten
  obtain ⟨-, hwritten, -⟩ := Written.append_iff.1 hwritten
  obtain ⟨zs, hown', hzs⟩ := hw.exists_append hwritten htext fun y hy => by
    rwa [← Option.some.inj (hx.symm.trans hy)]
  obtain ⟨rest, hrest, rfl⟩ := h.exists_eq (Written.append_iff.1 (hown' ▸ hwritten)).2.1 hzs
  cases l with
  | comment => simp [isDirective] at hdirective
  | block => simp [isDirective] at hdirective
  | directive gap name arguments =>
    obtain ⟨gap', arguments', rfl, hsaid⟩ := exists_directive_of_shape_eq hshape
    obtain ⟨-, harguments, hlast⟩ := hl
    rw [own, own, List.cons_append, List.cons_append] at hown'
    obtain ⟨ks, rfl, hrest''⟩ :=
      hgrammatical.exists_arguments hrest' harguments hlast (List.cons.inj hown').2
    -- the directive has the same arguments, so nothing comes after the last of them
    obtain ⟨-, harguments', hlast'⟩ := hgrammatical.1
    rw [List.all_append, Bool.and_eq_true] at harguments'
    obtain rfl : ks = [] := by
      refine eq_nil_of_said_eq_nil (fun k hk => ?_) harguments'.2 (fun k hk => ?_) ?_
      · exact hwritten.isLexical k (by simp [own, hk])
      · exact hlast' k (by simp [List.getLast?_append, Option.mem_def.1 hk])
      · simpa using hsaid
    rw [List.nil_append] at hrest''
    refine ⟨by simp [own], hgrammatical.2.2.nextGap_eq h.grammatical hrest'.isGap_head?
      hrest.isGap_head? hrest''.symm⟩

/-- What ends a directive ends before the text, unless it loses a backslash to a line break. -/
theorem Continues.stops_of_kept (h : Continues last trailing bs cs)
    (hbreak : bs ≠ [] → '\n' ∈ textOf (nextGap trailing bs)) {x : Chunk} (hlex : x.IsLexical)
    (hcomment : ∀ text, x.token ≠ some (.comment text))
    (hlost : ∀ text, x = .word text → text.toList.getLast? = some '\\' →
      startsWithBreak (textOf (nextGap trailing bs)) = false) : x.Stops cs := by
  refine h.stops hlex hcomment (fun y hy => ?_) fun hnil => ?_
  · obtain ⟨more, hmore⟩ : ∃ more, nextGap trailing bs = y :: more :=
      List.head?_eq_some_iff.1 hy
    have hgap := h.gap
    rw [hmore] at hgap hlost
    obtain ⟨hygap, hylex⟩ := (gap_cons.1 hgap).1
    refine Chunk.meets_gap hcomment (fun text hword hback hy' => ?_) hylex hygap
    obtain rfl := hlex.eq_word hword
    have hstart := hlost text rfl hback
    rw [textOf_cons, Bool.eq_false_iff, Ne, hylex.startsWithBreak_iff] at hstart
    exact hstart hy'
  · by_contra hne
    simpa [hnil] using hbreak hne

/-- A statement that is found again with the same shape ends before the next gap, unless its last
word loses a backslash to a line break. -/
theorem Continues.endsBefore_of_kept (h : Continues last trailing bs cs)
    (hbreak : bs ≠ [] → '\n' ∈ textOf (nextGap trailing bs)) (hl : l.Grammatical)
    (hw : Written l.own) (hz : Written zs) (htext : textOf zs = textOf l.own ++ cs)
    (h' : LegibleAll last trailing' rest' (l' :: bs')) (hrest' : Closes last rest')
    {gap : List Chunk} (hgap : gap.all Chunk.isGap = true)
    (hzs : ownAll (l' :: bs') ++ (trailing' ++ rest') = gap ++ zs)
    (hshape : l'.shape = l.shape) (hempty : bs'.isEmpty = bs.isEmpty)
    (hlost : ∀ text, l.own.getLast? = some (.word text) → text.toList.getLast? = some '\\' →
      startsWithBreak (textOf (nextGap trailing bs)) = false) :
    l.EndsBefore (last && bs.isEmpty) (nextGap trailing bs) := by
  obtain ⟨x, t, hx, ht, -⟩ := hl.exists_getLast?
  have hlex := hw.isLexical x (List.mem_of_getLast? hx)
  by_cases hcomment : ∃ text, t = .comment text
  · obtain ⟨text, rfl⟩ := hcomment
    obtain rfl := hlex.eq_comment ht
    obtain ⟨before, more, zs', hown, rfl, hmore, hhead⟩ := exists_taken hw hx hz htext
    have hown' := h'.grammatical.own_append_eq hgap hzs fun y hy => by
      cases before with
      | nil =>
        obtain rfl : Chunk.comment _ = y := by simpa using hy
        rfl
      | cons k before =>
        obtain rfl : k = y := by simpa using hy
        exact isGap_of_own_eq hown
    have hblank := isBlank_of_taken h'.grammatical hrest' hl hown hown' hshape
    obtain ⟨tail, rfl, htail⟩ := h.exists_tail
    have hends : endsComment (last && bs.isEmpty) (textOf (nextGap trailing bs)) = true := by
      refine h.gap.endsComment_of_taken hblank hhead hmore ?_
      by_cases hnil : bs = []
      · exact .inr (by simpa [hnil] using htail hnil)
      · exact .inl (hbreak hnil)
    intro y hy u hu
    obtain rfl := Option.some.inj (hx.symm.trans hy)
    obtain rfl := Option.some.inj hu
    exact hends
  by_cases hclose : ∃ name, t = .closeTag name
  · obtain ⟨name, rfl⟩ := hclose
    intro y hy u hu
    obtain rfl := Option.some.inj (hx.symm.trans hy)
    obtain rfl := Option.some.inj (ht.symm.trans hu)
    rfl
  -- the directive stands in its place, where it ends before the next gap
  have hstops : x.Stops cs := h.stops_of_kept hbreak hlex
    (fun text htext => hcomment ⟨text, Option.some.inj (ht.symm.trans htext)⟩)
    fun text hword hback => hlost text (hword ▸ hx) hback
  obtain ⟨more, rfl, -⟩ := hw.exists_append hz htext fun y hy => by
    rwa [← Option.some.inj (hx.symm.trans hy)]
  have hown' := h'.grammatical.own_append_eq hgap hzs fun y hy => by
    obtain ⟨k, ks, hk, hkgap⟩ := l.exists_own_eq_cons
    obtain rfl : k = y := by simpa [hk] using hy
    exact hkgap
  obtain ⟨hown, hnext⟩ := h.own_eq hl hw (isDirective_of_getLast? hx ht hcomment hclose) h' hrest'
    (hown' ▸ htext) hshape hx hstops
  have hends := h'.endsBefore hrest'.eq_true hrest'.isGap_head?
  rwa [hnext, hempty, EndsBefore, hown] at hends

/-! ## Words that lose a backslash -/

/-- The chunks of what is left of a word without its last backslash. -/
def stemChunks (stem : List Char) : List Chunk :=
  if stem.isEmpty then [] else [.word (String.ofList stem)]

theorem textOf_stemChunks (stem : List Char) : textOf (stemChunks stem) = stem := by
  unfold stemChunks
  split <;> simp_all

theorem said_stemChunks (stem : List Char) : (stemChunks stem).flatMap Chunk.said = stem := by
  unfold stemChunks
  split <;> simp_all

theorem written_stemChunks {stem br : List Char} (hbr : IsBreak br)
    (h : (Chunk.word (String.ofList (stem ++ ['\\']))).IsLexical) :
    Written (stemChunks stem ++ [.join br]) := by
  have hjoin : Written [Chunk.join br] := Written.cons_iff.2 ⟨.join hbr, .nil, by simp⟩
  cases stem with
  | nil => exact hjoin
  | cons c more =>
    generalize hk : Chunk.word (String.ofList ((c :: more) ++ ['\\'])) = k at h
    have htext := congrArg Chunk.text hk
    rw [Chunk.word_text, String.toList_ofList, List.cons_append] at htext
    refine Written.cons_iff.2 ⟨?_, hjoin, fun y hy => ?_⟩
    · cases h with
      | word hc hhash hmore =>
        rw [Chunk.word_text, String.toList_ofList] at htext
        obtain ⟨rfl, rfl⟩ := List.cons.inj htext
        exact .word hc hhash fun d hd => hmore d (by simp [hd])
      | _ => simp [Chunk.ext_iff] at hk
    · obtain rfl : Chunk.join br = y := by simpa using hy
      rfl

/-- Where a word loses its last backslash, the line is joined with the next one. -/
theorem exists_lost {text : String} {br : List Char} (hw : Written l.own)
    (hx : l.own.getLast? = some (.word text)) (hback : text.toList.getLast? = some '\\')
    (hbr : IsBreak br) (hz : Written zs) (htext : textOf zs = textOf l.own ++ (br ++ cs)) :
    ∃ before stem zs', l.own = before ++ [.word (String.ofList (stem ++ ['\\']))] ∧
      zs = before ++ (stemChunks stem ++ .join br :: zs') ∧ Written zs' ∧ textOf zs' = cs := by
  obtain ⟨before, hown⟩ := List.getLast?_eq_some_iff.1 hx
  obtain ⟨stem, hstem⟩ := List.getLast?_eq_some_iff.1 hback
  obtain rfl : text = String.ofList (stem ++ ['\\']) := by rw [← hstem, String.ofList_toList]
  rw [hown] at hw
  obtain ⟨hbefore, hword, hseam⟩ := Written.append_iff.1 hw
  have hlex := hword.isLexical _ (List.mem_singleton_self _)
  rw [hown, textOf_append, textOf_cons, textOf_nil, List.append_nil, List.append_assoc] at htext
  obtain ⟨zs, rfl, hzs⟩ := hbefore.exists_append hz htext fun x hx => by
    refine Chunk.stops_append_of_meets hlex (hseam x hx _ rfl) ⟨_, .inl rfl⟩ ?_ _
    cases stem <;> simp
  have hzs' : textOf zs = textOf (stemChunks stem ++ [.join br]) ++ cs := by
    simp [hzs, textOf_stemChunks]
  have hz' := (Written.append_iff.1 hz).2.1
  obtain ⟨zs', rfl, hcs⟩ := (written_stemChunks hbr hlex).exists_append hz' hzs' fun y hy => by
    obtain rfl : Chunk.join br = y := by simpa [List.getLast?_append] using hy
    trivial
  exact ⟨before, stem, zs', hown, by simp, (Written.append_iff.1 hz').2.1, hcs⟩

/-- What says nothing but a backslash is a backslash. -/
theorem exists_of_said_eq_backslash {ks : List Chunk} (hlex : ∀ k ∈ ks, k.IsLexical)
    (hks : ks.all Chunk.isArgument = true) (hlast : ∀ k ∈ ks.getLast?, k.token.isSome = true)
    (hsaid : ks.flatMap Chunk.said = ['\\']) :
    ∃ blanks, blanks.all Chunk.isGap = true ∧ ks = blanks ++ [.word "\\"] := by
  induction ks with
  | nil => simp at hsaid
  | cons k ks ih =>
    have hlast' : ∀ x ∈ ks.getLast?, x.token.isSome = true := by
      intro x hx
      exact hlast x (by simp [List.getLast?_cons, Option.mem_def.1 hx])
    rw [List.all_cons, Bool.and_eq_true] at hks
    rw [List.forall_mem_cons] at hlex
    cases htoken : k.token with
    | none =>
      rw [List.flatMap_cons, Chunk.said_of_none htoken, List.nil_append] at hsaid
      obtain ⟨blanks, hblanks, rfl⟩ := ih hlex.2 hks.2 hlast' hsaid
      refine ⟨k :: blanks, ?_, rfl⟩
      rw [List.all_cons, hblanks, Bool.and_true, Chunk.isGap, htoken]
    | some t =>
      have hk := Chunk.said_ne_nil hlex.1 hks.1 (by rw [htoken]; rfl)
      rw [List.flatMap_cons, List.append_eq_singleton_iff] at hsaid
      obtain ⟨hk', -⟩ | ⟨hk', hrest⟩ := hsaid
      · exact absurd hk' hk
      · obtain rfl := eq_nil_of_said_eq_nil hlex.2 hks.2 hlast' hrest
        exact ⟨[], rfl, congrArg (fun k => [k]) (Chunk.eq_word_of_said hlex.1 hk')⟩

/-- Where a gap is followed by a token, any gap that the text starts with is part of it. -/
theorem exists_gap_append {gap gap' ks zs : List Chunk} {k : Chunk}
    (hgap : gap.all Chunk.isGap = true) (hgap' : gap'.all Chunk.isGap = true)
    (hk : k.isGap = false) (h : gap' ++ k :: ks = gap ++ zs) :
    ∃ more, more.all Chunk.isGap = true ∧ gap' = gap ++ more ∧ zs = more ++ k :: ks := by
  rcases List.append_eq_append_iff.1 h with ⟨as, rfl, hcons⟩ | ⟨as, rfl, hzs⟩
  · cases as with
    | nil => exact ⟨[], rfl, by simp, by simpa using hcons.symm⟩
    | cons a as =>
      obtain ⟨rfl, -⟩ := List.cons.inj hcons
      simp [hk] at hgap
  · rw [List.all_append, Bool.and_eq_true] at hgap'
    exact ⟨as, hgap'.2, rfl, hzs⟩

/-- The chunks are read as a directive that is a single backslash, and some statements after it. -/
def AfterBackslash (last : Bool) (trailing rest : List Chunk) (bs : List Layout)
    (zs : List Chunk) : Prop :=
  ∃ blanks, GrammaticalAll last trailing (.directive blanks "\\" [] :: bs) ∧
    ownAll (.directive blanks "\\" [] :: bs) ++ (trailing ++ rest) = zs

/-- A single backslash may stand in the place of a directive. -/
theorem GrammaticalAll.afterBackslash {gap blanks arguments : List Chunk} {name : String}
    (h : GrammaticalAll last trailing (.directive gap name arguments :: bs))
    (hblanks : blanks.all Chunk.isGap = true) :
    AfterBackslash last trailing rest bs
      (blanks ++ .word "\\" :: (ownAll bs ++ (trailing ++ rest))) :=
  ⟨blanks, ⟨⟨hblanks, rfl, by simp⟩, h.2⟩, by simp [own, Layout.gap]⟩

/-- A directive whose name loses a backslash is only found again if that was all of it, and then it
is found further down. -/
theorem afterBackslash_of_name {gap gap' arguments zs' : List Chunk} {stem br : List Char}
    (h' : LegibleAll last trailing' rest'
      (.directive gap' (String.ofList (stem ++ ['\\'])) arguments :: bs'))
    (hsaid : arguments.flatMap Chunk.said = []) (hgap : gap.all Chunk.isGap = true)
    (hzs : ownAll (.directive gap' (String.ofList (stem ++ ['\\'])) arguments :: bs') ++
      (trailing' ++ rest') = gap ++ (stemChunks stem ++ .join br :: zs')) :
    AfterBackslash last trailing' rest' bs' zs' := by
  cases stem with
  | nil =>
    obtain ⟨hgap', harguments, hlast⟩ := h'.grammatical.1
    obtain rfl := eq_nil_of_said_eq_nil (fun k hk => h'.written.isLexical k (by simp [own, hk]))
      harguments hlast hsaid
    have hlead : (gap ++ [Chunk.join br]).all Chunk.isGap = true := by
      rw [List.all_append, hgap]
      rfl
    obtain ⟨blanks, hblanks, -, rfl⟩ := exists_gap_append (k := .word "\\") hlead hgap' rfl
      (by simpa [own, stemChunks, Layout.gap] using hzs)
    exact h'.grammatical.afterBackslash hblanks
  | cons c stem =>
    -- a shorter word is another name
    have hown := h'.grammatical.own_append_eq hgap hzs fun y hy => by
      obtain rfl : Chunk.word (String.ofList (c :: stem)) = y := by simpa [stemChunks] using hy
      rfl
    have hname := congrArg String.toList (Chunk.word_inj.1 (List.cons.inj hown).1)
    simp at hname

/-- A directive whose last argument loses a backslash is only found again if it goes on with another
one. -/
theorem afterBackslash_of_arguments {gap arguments before zs' : List Chunk} {name : String}
    {stem br : List Char}
    (h' : LegibleAll last trailing' rest' (.directive gap name arguments :: bs'))
    (hsaid : arguments.flatMap Chunk.said = before.flatMap Chunk.said ++ (stem ++ ['\\']))
    (hline : arguments ++ (ownAll bs' ++ (trailing' ++ rest')) =
      (before ++ (stemChunks stem ++ [.join br])) ++ zs') :
    AfterBackslash last trailing' rest' bs' zs' := by
  obtain ⟨-, harguments, hlast⟩ := h'.grammatical.1
  rcases List.append_eq_append_iff.1 hline with ⟨more, hmore, -⟩ | ⟨more, rfl, rfl⟩
  · -- without the backslash the directive says less than before
    have hless := congrArg (List.length ∘ List.flatMap Chunk.said) hmore
    simp only [Function.comp, List.flatMap_append, List.length_append, said_stemChunks, hsaid]
      at hless
    simp [Chunk.said] at hless
    omega
  · rw [List.all_append, Bool.and_eq_true] at harguments
    obtain ⟨blanks, hblanks, rfl⟩ := exists_of_said_eq_backslash
      (fun x hx => h'.written.isLexical x (by simp [own, hx])) harguments.2
      (fun x hx => hlast x (by rw [List.getLast?_append, Option.mem_def.1 hx]; rfl))
      (by simpa [said_stemChunks, Chunk.said_of_none] using hsaid)
    rw [List.append_assoc, List.singleton_append]
    exact h'.grammatical.afterBackslash hblanks

/-- A directive that loses a backslash and is found again with the same shape has taken in the next
statement: a directive that is only a backslash. -/
theorem afterBackslash_of_lost {before zs' gap : List Chunk} {stem br : List Char}
    (hown : l.own = before ++ [.word (String.ofList (stem ++ ['\\']))])
    (h' : LegibleAll last trailing' rest' (l' :: bs')) (hgap : gap.all Chunk.isGap = true)
    (hzs : ownAll (l' :: bs') ++ (trailing' ++ rest') =
      gap ++ (before ++ (stemChunks stem ++ .join br :: zs')))
    (hshape : l'.shape = l.shape) : AfterBackslash last trailing' rest' bs' zs' := by
  cases l with
  | comment =>
    have hlast := congrArg List.getLast? hown
    simp [own, Chunk.ext_iff] at hlast
  | block =>
    have hlast := congrArg List.getLast? hown
    simp [own, List.getLast?_append, Chunk.ext_iff] at hlast
  | directive lead name arguments =>
    obtain ⟨gap', arguments', rfl, hsaid⟩ := exists_directive_of_shape_eq hshape
    rw [own] at hown
    cases before with
    | nil =>
      obtain ⟨hname, rfl⟩ := List.cons.inj hown
      obtain rfl := Chunk.word_inj.1 hname
      exact afterBackslash_of_name h' (by simpa using hsaid) hgap hzs
    | cons k before =>
      rw [List.cons_append] at hown
      obtain ⟨rfl, rfl⟩ := List.cons.inj hown
      have hown' := h'.grammatical.own_append_eq hgap hzs fun y hy => by
        obtain rfl : Chunk.word name = y := by simpa using hy
        rfl
      rw [own, List.cons_append, List.cons_append] at hown'
      exact afterBackslash_of_arguments h' (by simpa using hsaid)
        (by simpa using (List.cons.inj hown').2)

theorem shapes_eq_map (ls : List Layout) : shapes ls = ls.map shape := by
  induction ls with
  | nil => rfl
  | cons l ls ih => rw [shapes, ih, List.map_cons]

/-- Every reading of the text has as many statements, also after a gap. -/
theorem Continues.length_eq (h : Continues last trailing bs cs) (hz : Written zs)
    (htext : textOf zs = cs) (h' : GrammaticalAll last trailing' bs') (hrest' : Closes last rest')
    {gap : List Chunk} (hgap : gap.all Chunk.isGap = true)
    (hzs : ownAll bs' ++ (trailing' ++ rest') = gap ++ zs) : bs'.length = bs.length := by
  obtain ⟨rest, hrest, rfl⟩ := h.exists_eq hz htext
  have hbs := h.grammatical
  cases bs with
  | nil =>
    have hall : GrammaticalAll last (gap ++ trailing) [] := by
      rw [GrammaticalAll, List.all_append, hgap, Bool.true_and]
      exact hbs
    rw [← hall.eq_of_closes h' hrest hrest' (by simpa using hzs.symm)]
  | cons b bs =>
    obtain ⟨hb, hend, hbs⟩ := hbs
    have hlead : (gap ++ b.gap).all Chunk.isGap = true := by
      rw [List.all_append, hgap, hb.all_isGap]
      rfl
    have hall : GrammaticalAll last trailing (b.withGap (gap ++ b.gap) :: bs) :=
      ⟨hb.withGap hlead, by simpa using hend, hbs⟩
    rw [← hall.eq_of_closes h' hrest hrest' (by simpa using hzs.symm)]
    rfl

/-- The text goes on after the first chunk of the next gap. -/
theorem Continues.exists_trimmed (h : Continues last trailing bs cs) {y : Chunk} {more : List Chunk}
    (hgap : nextGap trailing bs = y :: more) :
    ∃ trailing₁ bs₁ cs₁, Continues last trailing₁ bs₁ cs₁ ∧ cs = y.text ++ cs₁ ∧
      bs₁.length = bs.length := by
  obtain ⟨closing, after, hlegible, hclosing, rfl⟩ := h
  have hgap' : nextGap trailing bs = [y] ++ more := hgap
  obtain ⟨bs₁, trailing₁, htext, hshapes, hlegible₁, -⟩ := hlegible.exists_trimmed hgap'
  refine ⟨trailing₁, bs₁, _, ⟨closing, after, hlegible₁, hclosing, rfl⟩, ?_, ?_⟩
  · rw [← List.append_assoc, textOf_append, htext]
    simp
  · simpa [shapes_eq_map] using congrArg List.length hshapes

/-- The text goes on after a line break that it starts with. -/
theorem Continues.exists_after_break (h : Continues last trailing bs cs)
    (hstart : startsWithBreak (textOf (nextGap trailing bs)) = true) :
    ∃ br trailing₁ bs₁ cs₁, IsBreak br ∧ Continues last trailing₁ bs₁ cs₁ ∧ cs = br ++ cs₁ ∧
      bs₁.length = bs.length := by
  cases hnext : nextGap trailing bs with
  | nil => simp [hnext, startsWithBreak] at hstart
  | cons y more =>
    have hlex := h.gap
    rw [hnext] at hlex hstart
    obtain ⟨-, hylex⟩ := (gap_cons.1 hlex).1
    rw [textOf_cons, hylex.startsWithBreak_iff] at hstart
    obtain ⟨trailing₁, bs₁, cs₁, h₁, rfl, hlength⟩ := h.exists_trimmed hnext
    cases hylex with
    | @newline br hbr => exact ⟨br, trailing₁, bs₁, cs₁, hbr, h₁, rfl, hlength⟩
    | _ => simp at hstart

/-- The last word of a statement that is found again with the same shape keeps its backslash. -/
theorem Continues.startsWithBreak_eq_false (h : Continues last trailing bs cs) (hw : Written l.own)
    (hz : Written zs) (htext : textOf zs = textOf l.own ++ cs)
    (h' : LegibleAll last trailing' rest' (l' :: bs')) (hrest' : Closes last rest')
    {gap : List Chunk} (hgap : gap.all Chunk.isGap = true)
    (hzs : ownAll (l' :: bs') ++ (trailing' ++ rest') = gap ++ zs)
    (hshape : l'.shape = l.shape) (hlength : bs'.length = bs.length) {text : String}
    (hx : l.own.getLast? = some (.word text)) (hback : text.toList.getLast? = some '\\') :
    startsWithBreak (textOf (nextGap trailing bs)) = false := by
  rw [Bool.eq_false_iff]
  intro hstart
  obtain ⟨br, trailing₁, bs₁, cs₁, hbr, h₁, rfl, hlength₁⟩ := h.exists_after_break hstart
  obtain ⟨before, stem, zs', hown, rfl, hz', hcs⟩ := exists_lost hw hx hback hbr hz htext
  -- a single backslash comes before the other statements, so one of them is gone
  obtain ⟨blanks, hgrammatical, hfound⟩ := afterBackslash_of_lost hown h' hgap hzs hshape
  have hmore := h₁.length_eq hz' hcs hgrammatical hrest' List.all_nil hfound
  rw [List.length_cons] at hmore
  omega

/-- A statement that is found again with the same shape ends before the next gap. -/
theorem Continues.endsBefore (h : Continues last trailing bs cs)
    (hbreak : bs ≠ [] → '\n' ∈ textOf (nextGap trailing bs)) (hl : l.Grammatical)
    (hw : Written l.own) (hz : Written zs) (htext : textOf zs = textOf l.own ++ cs)
    (h' : LegibleAll last trailing' rest' (l' :: bs')) (hrest' : Closes last rest')
    {gap : List Chunk} (hgap : gap.all Chunk.isGap = true)
    (hzs : ownAll (l' :: bs') ++ (trailing' ++ rest') = gap ++ zs)
    (hshape : l'.shape = l.shape) (hlength : bs'.length = bs.length) :
    l.EndsBefore (last && bs.isEmpty) (nextGap trailing bs) :=
  h.endsBefore_of_kept hbreak hl hw hz htext h' hrest' hgap hzs hshape
    (by cases bs <;> cases bs' <;> simp_all) fun _ hx hback =>
      h.startsWithBreak_eq_false hw hz htext h' hrest' hgap hzs hshape hlength hx hback

/-! ## Statements after a lost backslash -/

/-- What follows a directive without arguments on its line is blank. -/
theorem GrammaticalAll.all_isGap_of_arguments {gap arguments more : List Chunk} {name : String}
    (h : GrammaticalAll last trailing (.directive gap name [] :: bs)) (hrest : Closes last rest)
    (harguments : arguments.all Chunk.isArgument = true)
    (heq : ownAll bs ++ (trailing ++ rest) = arguments ++ more) :
    arguments.all Chunk.isGap = true := by
  induction arguments using List.reverseRecOn generalizing more with
  | nil => rfl
  | append_singleton ks k ih =>
    have heq' : ownAll bs ++ (trailing ++ rest) = ks ++ (k :: more) := by simpa using heq
    have hks := ih (Bool.and_eq_true_iff.1 (List.all_append ▸ harguments)).1 heq'
    cases htoken : k.token with
    | none => simp [hks, Chunk.isGap, htoken]
    | some t =>
      -- a token would be an argument of the directive
      obtain ⟨others, hnil, -⟩ := h.exists_arguments hrest harguments (by simp [htoken])
        (by simpa using heq)
      simp at hnil

theorem all_isArgument_stemChunks (stem : List Char) :
    (stemChunks stem).all Chunk.isArgument = true := by
  unfold stemChunks
  split <;> rfl

/-- A directive before the text is read up to its end, or up to a backslash that it loses to a line
break. -/
theorem Continues.exists_line {gap arguments : List Chunk} {name : String}
    (h : Continues last trailing bs cs) (hbreak : bs ≠ [] → '\n' ∈ textOf (nextGap trailing bs))
    (hl : (directive gap name arguments).Grammatical)
    (hw : Written (directive gap name arguments).own)
    (hcomment : ∀ text, (directive gap name arguments).own.getLast? ≠ some (.comment text))
    (hz : Written zs) (htext : textOf zs = textOf (directive gap name arguments).own ++ cs) :
    ∃ line zs₁ trailing₁ bs₁ cs₁, zs = line ++ zs₁ ∧ textOf zs₁ = cs₁ ∧
      Continues last trailing₁ bs₁ cs₁ ∧ bs₁.length = bs.length ∧
      (line.all Chunk.isGap = true ∨ ∃ name' arguments', line = .word name' :: arguments' ∧
        arguments'.all Chunk.isArgument = true) := by
  obtain ⟨x, t, hx, -⟩ := hl.exists_getLast?
  have hlex := hw.isLexical x (List.mem_of_getLast? hx)
  by_cases hstops : x.Stops cs
  · obtain ⟨zs₁, rfl, hzs₁⟩ := hw.exists_append hz htext fun y hy => by
      rwa [← Option.some.inj (hx.symm.trans hy)]
    exact ⟨_, zs₁, trailing, bs, cs, rfl, hzs₁, h, rfl, .inr ⟨name, arguments, rfl, hl.2.1⟩⟩
  · obtain ⟨text, rfl, hback, hstart⟩ : ∃ text, x = .word text ∧ text.toList.getLast? = some '\\' ∧
        startsWithBreak (textOf (nextGap trailing bs)) = true := by
      by_contra hnone
      refine hstops (h.stops_of_kept hbreak hlex (fun text htoken => ?_) fun text hword hback => ?_)
      · exact hcomment text (hlex.eq_comment htoken ▸ hx)
      · rw [Bool.eq_false_iff]
        exact fun hstart => hnone ⟨text, hword, hback, hstart⟩
    obtain ⟨br, trailing₁, bs₁, cs₁, hbr, h₁, rfl, hlength⟩ := h.exists_after_break hstart
    obtain ⟨before, stem, zs₁, hown, rfl, -, hcs⟩ := exists_lost hw hx hback hbr hz htext
    refine ⟨before ++ (stemChunks stem ++ [.join br]), zs₁, trailing₁, bs₁, cs₁, by simp, hcs, h₁,
      hlength, ?_⟩
    rw [own] at hown
    cases before with
    | nil =>
      cases stem with
      | nil => exact .inl rfl
      | cons c stem => exact .inr ⟨String.ofList (c :: stem), [.join br], rfl, rfl⟩
    | cons k before =>
      obtain ⟨rfl, rfl⟩ := List.cons.inj hown
      refine .inr ⟨name, before ++ (stemChunks stem ++ [.join br]), rfl, ?_⟩
      have hbefore := (Bool.and_eq_true_iff.1 (List.all_append ▸ hl.2.1)).1
      rw [List.all_append, List.all_append, hbefore, all_isArgument_stemChunks]
      rfl

theorem isGap_eq_false_of_text {k : Chunk} (hlex : k.IsLexical) {c : Char} {cs : List Char}
    (hk : k.text = c :: cs) (hc : c = '#' ∨ c = '<') : k.isGap = false := by
  cases hlex with
  | blank hsep =>
    obtain ⟨rfl, -⟩ := List.cons.inj hk
    rcases hc with rfl | rfl <;> exact absurd hsep (by decide)
  | join => rcases hc with rfl | rfl <;> simp at hk
  | newline hbr => rcases hbr with rfl | rfl <;> rcases hc with rfl | rfl <;> simp at hk
  | _ => rfl

/-- Only a directive before the text can be read as a single backslash, and as many statements come
after it as in the text, or one less. -/
theorem Continues.length_le (h : Continues last trailing bs cs)
    (hbreak : bs ≠ [] → '\n' ∈ textOf (nextGap trailing bs)) (hl : l.Grammatical)
    (hw : Written l.own)
    (hcomment : l.isDirective = true → ∀ text, l.own.getLast? ≠ some (.comment text))
    (hz : Written zs) (htext : textOf zs = textOf l.own ++ cs) {gap : List Chunk}
    (hgap : gap.all Chunk.isGap = true) (h' : AfterBackslash last trailing' rest' bs' (gap ++ zs))
    (hrest' : Closes last rest') : bs'.length ≤ bs.length := by
  obtain ⟨blanks, h', hzs⟩ := h'
  have hfirst : ∀ c ds, textOf l.own = c :: ds → c = '#' ∨ c = '<' → False := by
    intro c ds hc hsign
    -- what is read first starts with another letter
    rw [hc] at htext
    have hown := h'.own_append_eq hgap hzs fun y hy => by
      obtain ⟨zs, rfl⟩ : ∃ zs', zs = y :: zs' := List.head?_eq_some_iff.1 hy
      have hlex := hz.isLexical y (by simp)
      obtain ⟨d, es, hy'⟩ := List.exists_cons_of_ne_nil hlex.text_ne_nil
      rw [textOf_cons, hy'] at htext
      obtain ⟨rfl, -⟩ := List.cons.inj htext
      exact isGap_eq_false_of_text hlex hy' hsign
    rw [← hown] at htext
    obtain ⟨rfl, -⟩ := List.cons.inj htext
    exact absurd hsign (by decide)
  cases l with
  | comment lead text =>
    have hlex : (Chunk.comment text).IsLexical := hw.isLexical _ (by simp [own])
    obtain ⟨body, rfl, -⟩ := Chunk.exists_body_of_isLexical hlex
    exact (hfirst '#' body (by simp [own]) (.inl rfl)).elim
  | block lead name arguments inside trailing closing blanks =>
    exact (hfirst '<' _ rfl (.inr rfl)).elim
  | directive lead name arguments =>
    obtain ⟨line, zs₁, trailing₁, bs₁, cs₁, rfl, hcs, h₁, hlength, hgap' | ⟨name', arguments', rfl,
      harguments⟩⟩ := h.exists_line hbreak hl hw (hcomment rfl) hz htext
    · -- nothing is left of the directive
      have hlead : (gap ++ line).all Chunk.isGap = true := by
        rw [List.all_append, hgap, hgap']
        rfl
      have hmore := h₁.length_eq (Written.append_iff.1 hz).2.1 hcs h' hrest' hlead
        (by rw [hzs, List.append_assoc])
      rw [List.length_cons] at hmore
      omega
    · have hown := h'.own_append_eq hgap hzs fun y hy => by
        obtain rfl : Chunk.word name' = y := by simpa using hy
        rfl
      have hline := (List.cons.inj hown).2
      rw [← hlength]
      refine (h₁.length_eq (Written.append_iff.1 hz).2.1 hcs h'.2.2 hrest' ?_ hline).le
      exact h'.all_isGap_of_arguments hrest' harguments hline

/-! ## Statements in the same order -/

/-- Separated statements and the gap after them end before everything. -/
theorem SeparatedAll.stops_getLast? {as : List Layout} {gap : List Chunk}
    (h : SeparatedAll false gap as) {x : Chunk} (hx : (ownAll as ++ gap).getLast? = some x)
    (cs : List Char) : x.Stops cs := by
  have hgap : ∀ y ∈ gap.getLast?, y.Stops cs := by
    intro y hy
    have hall : ∀ {ls : List Layout}, SeparatedAll false gap ls → gap.all Chunk.isGap = true := by
      intro ls hls
      induction ls with
      | nil => exact hls.all_isGap
      | cons l ls ih => exact ih hls.2.2.2.2
    have hgap := List.all_eq_true.1 (hall h) y (List.mem_of_getLast? hy)
    unfold Chunk.Stops
    unfold Chunk.isGap at hgap
    split at hgap <;> simp_all
  cases hlast : gap.getLast? with
  | some y =>
    obtain rfl : y = x := by simpa [List.getLast?_append, hlast] using hx
    exact hgap y hlast
  | none =>
    -- without a gap only a close tag ends a statement
    obtain rfl := List.getLast?_eq_none_iff.1 hlast
    rcases as.eq_nil_or_concat with rfl | ⟨as, l, rfl⟩
    · simp at hx
    rw [List.concat_eq_append] at h hx
    obtain ⟨-, -, hl, -, hends, -⟩ := separatedAll_append.1 h
    obtain ⟨y, t, hy, ht, -⟩ := hl.exists_getLast?
    obtain rfl : y = x := by simpa [List.getLast?_append, hy] using hx
    have hclose := hends y hy t ht
    cases t <;>
      simp_all [Token.endsBefore, nextGap, endsLine, endsComment, scanFrom, Except.toOption,
        Chunk.Stops]

/-- After statements that are separated, what follows is found in the same place. -/
theorem SeparatedAll.exists_aligned {as as' : List Layout} {gap ks : List Chunk} {k : Chunk}
    (h : SeparatedAll false gap as) (hks : Written (k :: ks)) (hk : k.isGap = false)
    (h' : LegibleAll last trailing' rest' (as' ++ l' :: bs')) (hlength : as'.length = as.length)
    (htext : textOf (ownAll (as' ++ l' :: bs') ++ (trailing' ++ rest')) =
      textOf (ownAll as ++ gap) ++ cs) :
    ∃ gap₁ zs, gap₁.all Chunk.isGap = true ∧ Written zs ∧ textOf zs = cs ∧
      LegibleAll last trailing' rest' (l' :: bs') ∧
      ownAll (l' :: bs') ++ (trailing' ++ rest') = gap₁ ++ zs := by
  obtain ⟨as₁, gap₁, htext₁, hshapes, hlegible, -⟩ := h.exists_legible hks (by simp)
  have hseparated := hlegible.separatedAll (by simp) (by simpa using hk)
  obtain ⟨hgrammatical', hgrammatical⟩ := h'.grammatical.of_append
  have hwritten := hlegible.written
  rw [← List.append_assoc] at hwritten
  rw [← htext₁] at htext
  obtain ⟨zs, hzs, hcs⟩ := (Written.append_iff.1 hwritten).1.exists_append h'.written htext
    fun x hx => hseparated.stops_getLast? hx cs
  have hlength₁ : as'.length = as₁.length := by
    rw [hlength]
    simpa [shapes_eq_map] using (congrArg List.length hshapes).symm
  have hsame : ownAll as' ++ (l'.gap ++ (l'.own ++ (ownAll bs' ++ (trailing' ++ rest')))) =
      ownAll as₁ ++ (gap₁ ++ zs) := by simpa using hzs
  obtain rfl := hgrammatical'.eq_of_length_eq hlegible.grammatical hlength₁ hsame
  have htail : ownAll (l' :: bs') ++ (trailing' ++ rest') = gap₁ ++ zs := by
    simpa using List.append_cancel_left hsame
  have hw' := h'.written
  rw [ownAll_append, List.append_assoc] at hw'
  refine ⟨gap₁, zs, hlegible.grammatical.trailing, ?_, hcs,
    ⟨hgrammatical, (Written.append_iff.1 hw').2.1⟩, htail⟩
  exact (Written.append_iff.1 (hzs ▸ h'.written)).2.1

end Layout

end HttpdConf
