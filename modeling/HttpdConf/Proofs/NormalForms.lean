import HttpdConf.Proofs.LineEndings

/-!
# Normal forms of statements

A statement is written anew from its name and arguments, with one space before each argument. The
arguments were put together from tokens of every kind: `%>s` is three of them, a `#` takes the rest
of the line along, and a joined line ends a word without a blank. Written anew, the tokens that
touched each other still touch, and single spaces stand where anything else was between two of
them. So the line has the tokens that it had before, and they make the same arguments.

In an open tag no tokens go together, and a space comes before each of them.

## Main definitions

* `Chunk.respaced`, `respacedArguments`, `respacedTagArguments`: chunks with single spaces between
  the arguments
* `FragmentKind.regenerated?`: the text of a statement that is written anew

## Main results

* `gatherArguments_respacedArguments`, `textOf_respacedArguments`: respacing keeps the arguments,
  and writes each after a space
* `Fragment.exists_layout_of_read`: every fragment of a file shows a grammatical layout
* `Fragment.read_regenerated`: a statement that is written anew is read back, alone in its file
-/

namespace HttpdConf

/-! ## Words -/

namespace Text

/-- The words of a text with single spaces between them. -/
def respaced (cs : List Char) : List Char :=
  match words cs with
  | [] => []
  | w :: ws => w ++ ws.flatMap (' ' :: ·)

/-- A word ends at the first blank after it. -/
theorem words_append_of_isBlank {w rest : List Char} (hne : w ≠ [])
    (hw : ∀ c ∈ w, isBlank c = false) (hrest : ∀ c ∈ rest.head?, isBlank c = true) :
    words (w ++ rest) = w :: words rest := by
  induction w with
  | nil => exact absurd rfl hne
  | cons c w ih =>
    have hc : isBlank c = false := hw c (by simp)
    cases w with
    | nil =>
      cases rest with
      | nil => simp [words, hc]
      | cons d rest => simp [words, hc, hrest d (by simp)]
    | cons d w =>
      have hd : isBlank d = false := hw d (by simp)
      have hmore := ih (by simp) fun x hx => hw x (List.mem_cons_of_mem _ hx)
      rw [List.cons_append] at hmore
      rw [List.cons_append, List.cons_append, words, if_neg (by simp [hc]), if_neg (by simp [hd]),
        hmore]

/-- A word is a run of characters that are not blank. -/
theorem isBlank_of_mem_words {cs w : List Char} (h : w ∈ words cs) :
    w ≠ [] ∧ ∀ c ∈ w, isBlank c = false := by
  fun_induction words cs generalizing w with
  | case1 => simp at h
  | case2 c hc => simp at h
  | case3 c hc => simp_all
  | case4 c d cs hc ih => exact ih h
  | case5 c d cs hc hd ih =>
    rcases List.mem_cons.1 h with rfl | h
    · simpa using hc
    · exact ih h
  | case6 c d cs hc hd hnil ih => simp_all
  | case7 c d cs hc hd v ws hcons ih =>
    rcases List.mem_cons.1 h with rfl | h
    · have hv := ih (w := v) (by simp [hcons])
      exact ⟨by simp, by simpa [hc] using hv.2⟩
    · exact ih (by simp [hcons, h])

/-- The first word of a text starts where the text does, unless that is a blank. -/
theorem exists_words_cons {c : Char} (hc : isBlank c = false) (cs : List Char) :
    ∃ w ws, words (c :: cs) = (c :: w) :: ws := by
  cases cs with
  | nil => exact ⟨[], [], by simp [words, hc]⟩
  | cons d cs =>
    rw [words, if_neg (by simp [hc])]
    split
    · exact ⟨[], _, rfl⟩
    · split
      · exact ⟨[], [], rfl⟩
      · exact ⟨_, _, rfl⟩

/-- Words with single spaces between them are the same words. -/
theorem words_respaced (cs : List Char) : words (respaced cs) = words cs := by
  have hspace : ∀ ws : List (List Char), ∀ c ∈ (ws.flatMap (' ' :: ·)).head?,
      isBlank c = true := by
    intro ws c hc
    cases ws with
    | nil => simp at hc
    | cons w ws => obtain rfl : ' ' = c := by simpa using hc
                   decide
  have hspaced : ∀ ws : List (List Char), (∀ w ∈ ws, w ≠ [] ∧ ∀ c ∈ w, isBlank c = false) →
      words (ws.flatMap (' ' :: ·)) = ws := by
    intro ws hws
    induction ws with
    | nil => rfl
    | cons w ws ih =>
      obtain ⟨hne, hw⟩ := hws w (by simp)
      rw [List.flatMap_cons, List.cons_append, words_cons_of_isBlank _ (by decide),
        words_append_of_isBlank hne hw (hspace ws), ih fun v hv => hws v (by simp [hv])]
  unfold respaced
  cases hwords : words cs with
  | nil => rfl
  | cons w ws =>
    have hall : ∀ v ∈ w :: ws, v ≠ [] ∧ ∀ c ∈ v, isBlank c = false := by
      rw [← hwords]
      exact fun v hv => isBlank_of_mem_words hv
    obtain ⟨hne, hw⟩ := hall w (by simp)
    simp only
    rw [words_append_of_isBlank hne hw (hspace ws), hspaced ws fun v hv => hall v (by simp [hv])]

/-- No characters but spaces are put between the words. -/
theorem mem_of_mem_respaced {cs : List Char} {c : Char} (h : c ∈ respaced cs) :
    c = ' ' ∨ c ∈ cs := by
  unfold respaced at h
  split at h
  · simp at h
  · rename_i w ws hwords
    rcases List.mem_append.1 h with h | h
    · exact .inr (mem_of_mem_words (by simp [hwords]) h)
    · obtain ⟨v, hv, hc⟩ := List.mem_flatMap.1 h
      rcases List.mem_cons.1 hc with rfl | hc
      · exact .inl rfl
      · exact .inr (mem_of_mem_words (w := v) (by simp [hwords, hv]) hc)

end Text

/-! ## Arguments of directives -/

/-- The chunk with single spaces between its words. Only a comment has more than one. -/
def Chunk.respaced (k : Chunk) : Chunk :=
  match k.token with
  | some (.comment text) => .comment (String.ofList (Text.respaced text.toList))
  | _ => k

/-- The chunks after a directive's name with one space in front of each argument. A token that
touches the token before it goes on touching it. -/
def respacedArguments (touching : Bool) : List Chunk → List Chunk
  | [] => []
  | k :: ks =>
    match k.token with
    | none => respacedArguments false ks
    | some _ =>
      if touching then k.respaced :: respacedArguments true ks
      else .blank ' ' :: k.respaced :: respacedArguments true ks

namespace Chunk

variable {k x y : Chunk}

theorem respaced_of_ne_comment (h : ∀ text, k.token ≠ some (.comment text)) : k.respaced = k := by
  unfold respaced
  split
  · exact absurd ‹_› (h _)
  · rfl

/-- The words of a token are those of its text. -/
theorem argumentWords?_respaced :
    k.respaced.token.bind Token.argumentWords? = k.token.bind Token.argumentWords? := by
  unfold respaced
  split
  · rename_i text htoken
    simp [htoken, Token.argumentWords?, Text.words_respaced]
  · rfl

theorem isArgument_respaced (h : k.isArgument = true) : k.respaced.isArgument = true := by
  unfold respaced
  split
  · rfl
  · exact h

theorem isSome_token_respaced (h : k.token.isSome = true) : k.respaced.token.isSome = true := by
  unfold respaced
  split
  · rfl
  · exact h

/-- A comment keeps its mark when its words are respaced. -/
theorem exists_respaced_hash (body : List Char) :
    ∃ more, Text.respaced ('#' :: body) = '#' :: more ∧ ∀ c ∈ more, c = ' ' ∨ c ∈ '#' :: body := by
  obtain ⟨w, ws, hwords⟩ := Text.exists_words_cons (c := '#') (by decide) body
  have hrespaced : Text.respaced ('#' :: body) = '#' :: (w ++ ws.flatMap (' ' :: ·)) := by
    simp [Text.respaced, hwords]
  refine ⟨_, hrespaced, fun c hc => Text.mem_of_mem_respaced ?_⟩
  rw [hrespaced]
  exact List.mem_cons_of_mem _ hc

theorem IsLexical.respaced (h : k.IsLexical) : k.respaced.IsLexical := by
  cases h with
  | @comment body hbody =>
    obtain ⟨more, hmore, hmem⟩ := exists_respaced_hash body
    have hline : ∀ c ∈ more, c ≠ '\r' ∧ c ≠ '\n' := by
      intro c hc
      rcases hmem c hc with rfl | hc
      · decide
      · rcases List.mem_cons.1 hc with rfl | hc
        · decide
        · exact hbody c hc
    simpa [Chunk.respaced, hmore] using IsLexical.comment hline
  | _ =>
    rw [respaced_of_ne_comment (by simp)]
    constructor <;> assumption

/-- A token that is an argument has a first word, and its text has single spaces between the
words. -/
theorem IsLexical.exists_words (h : k.IsLexical) {t : Token} (ht : k.token = some t)
    (harg : k.isArgument = true) :
    ∃ first more, k.token.bind Token.argumentWords? = some (first :: more) ∧
      k.respaced.text = first.toList ++ textOf (parameterChunks more) := by
  cases h with
  | @comment body hbody =>
    obtain ⟨w, ws, hwords⟩ := Text.exists_words_cons (c := '#') (by decide) body
    refine ⟨String.ofList ('#' :: w), ws.map String.ofList, ?_, ?_⟩
    · simp [Token.argumentWords?, hwords]
    · have hmore : textOf (parameterChunks (ws.map String.ofList)) = ws.flatMap (' ' :: ·) := by
        clear hwords
        induction ws with
        | nil => rfl
        | cons v ws ih => simp [ih]
      simp [Chunk.respaced, Text.respaced, hwords, hmore]
  | blank _ => simp at ht
  | join _ => simp at ht
  | newline _ => simp [isArgument, Token.argumentWords?] at harg
  | closeTag _ _ _ => simp [isArgument, Token.argumentWords?] at harg
  | quoted _ => exact ⟨_, [], rfl, by simp [Chunk.respaced]⟩
  | word _ _ _ => exact ⟨_, [], rfl, by simp [Chunk.respaced]⟩
  | tagEnd => exact ⟨_, [], rfl, rfl⟩
  | less => exact ⟨_, [], rfl, rfl⟩
  | openTag _ _ => exact ⟨_, [], rfl, by simp [Chunk.respaced]⟩

/-- A chunk inside a directive ends before a space, unless it is a comment. -/
theorem meets_space (h : ∀ text, k.token ≠ some (.comment text)) :
    k.meets (.blank ' ') = true :=
  meets_gap h (fun _ _ _ => by simp) (.blank rfl) rfl

/-- A comment ends at a line break only, which is no argument. -/
theorem ne_comment_of_meets (h : k.meets x = true) (hx : x.isArgument = true) (text : String) :
    k.token ≠ some (.comment text) := by
  intro htoken
  have hnewline : x.token = some .newline := by simpa [meets, htoken] using h
  simp [isArgument, hnewline, Token.argumentWords?] at hx

/-- A chunk that ends before a token still does when both are respaced. -/
theorem meets_respaced (h : k.meets x = true) (hx : x.IsLexical) (harg : x.isArgument = true) :
    k.respaced.meets x.respaced = true := by
  rw [respaced_of_ne_comment (ne_comment_of_meets h harg)]
  cases hx with
  | @comment body hbody =>
    -- whatever ends before the comment looks at its mark only
    obtain ⟨more, hmore, -⟩ := exists_respaced_hash body
    unfold meets at h ⊢
    split at h <;> simp_all [Chunk.respaced, startsTag]
  | _ => rwa [respaced_of_ne_comment (by simp)]

end Chunk

section

variable {touching touching' : Bool} {arguments : List String} {ks : List Chunk} {k : Chunk}

theorem respacedArguments_of_none (h : k.token = none) :
    respacedArguments touching (k :: ks) = respacedArguments false ks := by
  rw [respacedArguments, h]

theorem respacedArguments_of_some {t : Token} (h : k.token = some t) :
    respacedArguments touching (k :: ks) =
      (if touching then [] else [.blank ' ']) ++ k.respaced :: respacedArguments true ks := by
  rw [respacedArguments, h]
  cases touching <;> rfl

/-- The respaced chunks make the same arguments. -/
theorem gatherArguments_respacedArguments (hargs : ∀ k ∈ ks, k.isArgument = true)
    (h : touching = true → touching' = true) :
    gatherArguments touching' arguments (respacedArguments touching ks) =
      gatherArguments touching arguments ks := by
  induction ks generalizing touching touching' arguments with
  | nil => rfl
  | cons k ks ih =>
    rw [List.forall_mem_cons] at hargs
    cases ht : k.token with
    | none =>
      rw [respacedArguments_of_none ht, ih hargs.2 (by simp), gatherArguments, ht]
      rfl
    | some t =>
      -- a space before the token keeps it from touching the one before it
      have hspace : gatherArguments touching' arguments (respacedArguments touching (k :: ks)) =
          gatherArguments touching arguments (k.respaced :: respacedArguments true ks) := by
        rw [respacedArguments_of_some ht]
        cases htouching : touching
        · rfl
        · rw [h htouching]
          rfl
      obtain ⟨words, hwords⟩ : ∃ words, k.token.bind Token.argumentWords? = some words := by
        have hk := hargs.1
        rw [Chunk.isArgument, ht, Option.all_some] at hk
        rw [ht, Option.bind_some]
        exact Option.isSome_iff_exists.1 hk
      rw [hspace, gatherArguments, gatherArguments, Chunk.argumentWords?_respaced, hwords]
      exact ih hargs.2 fun _ => rfl

/-- More words put more text after the arguments: a space and the word for each of them, but for a
first word that goes on with the last argument. -/
theorem textOf_extendArguments (h : touching = true → arguments ≠ []) (first : String)
    (more : List String) :
    textOf (parameterChunks (extendArguments touching arguments (first :: more))) =
      textOf (parameterChunks arguments) ++ ((if touching then [] else [' ']) ++
        (first.toList ++ textOf (parameterChunks more))) := by
  have happend : ∀ as bs : List String, textOf (parameterChunks (as ++ bs)) =
      textOf (parameterChunks as) ++ textOf (parameterChunks bs) := by
    intro as bs
    rw [parameterChunks, List.flatMap_append, textOf_append]
    rfl
  cases touching with
  | false => simp [extendArguments, happend]
  | true =>
    rcases List.eq_nil_or_concat arguments with rfl | ⟨before, last, rfl⟩
    · exact absurd rfl (h rfl)
    · simp [extendArguments, happend]

/-- The text of the respaced chunks has each argument after a space. -/
theorem textOf_respacedArguments (hargs : ∀ k ∈ ks, k.isArgument = true)
    (hlex : ∀ k ∈ ks, k.IsLexical) (h : touching = true → arguments ≠ []) :
    textOf (parameterChunks (gatherArguments touching arguments ks)) =
      textOf (parameterChunks arguments) ++ textOf (respacedArguments touching ks) := by
  induction ks generalizing touching arguments with
  | nil => simp [gatherArguments, respacedArguments]
  | cons k ks ih =>
    rw [List.forall_mem_cons] at hargs hlex
    cases ht : k.token with
    | none =>
      rw [respacedArguments_of_none ht, ← ih hargs.2 hlex.2 (by simp), gatherArguments, ht]
      rfl
    | some t =>
      obtain ⟨first, more, hwords, htext⟩ := hlex.1.exists_words ht hargs.1
      have hne : extendArguments touching arguments (first :: more) ≠ [] := by
        unfold extendArguments
        split <;> simp
      rw [gatherArguments, hwords]
      simp only
      rw [ih hargs.2 hlex.2 fun _ => hne, textOf_extendArguments h, respacedArguments_of_some ht,
        textOf_append, textOf_cons, htext]
      cases touching <;> simp

theorem isArgument_of_mem_respacedArguments (hargs : ∀ k ∈ ks, k.isArgument = true)
    (hk : k ∈ respacedArguments touching ks) : k.isArgument = true := by
  induction ks generalizing touching with
  | nil => simp [respacedArguments] at hk
  | cons x ks ih =>
    rw [List.forall_mem_cons] at hargs
    cases ht : x.token with
    | none =>
      rw [respacedArguments_of_none ht] at hk
      exact ih hargs.2 hk
    | some t =>
      rw [respacedArguments_of_some ht, List.mem_append, List.mem_cons] at hk
      rcases hk with hk | rfl | hk
      · obtain rfl : k = .blank ' ' := by cases touching <;> simp_all
        rfl
      · exact Chunk.isArgument_respaced hargs.1
      · exact ih hargs.2 hk

/-- Respaced chunks end with a token. -/
theorem isSome_token_getLast?_respacedArguments
    (hk : k ∈ (respacedArguments touching ks).getLast?) : k.token.isSome = true := by
  induction ks generalizing touching with
  | nil => simp [respacedArguments] at hk
  | cons x ks ih =>
    cases ht : x.token with
    | none =>
      rw [respacedArguments_of_none ht] at hk
      exact ih hk
    | some t =>
      rw [respacedArguments_of_some ht, List.getLast?_append_cons, List.getLast?_cons] at hk
      cases hlast : (respacedArguments true ks).getLast? with
      | none =>
        obtain rfl : x.respaced = k := by simpa [hlast] using hk
        exact Chunk.isSome_token_respaced (by simp [ht])
      | some y =>
        obtain rfl : y = k := by simpa [hlast] using hk
        exact ih hlast

/-- Respaced chunks start with a space, or touch what is before them as they did. -/
theorem mem_head?_respacedArguments (hk : k ∈ (respacedArguments touching ks).head?) :
    k = .blank ' ' ∨ touching = true ∧ ∃ x ∈ ks.head?, k = x.respaced := by
  induction ks generalizing touching with
  | nil => simp [respacedArguments] at hk
  | cons x ks ih =>
    cases ht : x.token with
    | none =>
      rw [respacedArguments_of_none ht] at hk
      exact (ih hk).imp_right fun h => absurd h.1 (by simp)
    | some t =>
      rw [respacedArguments_of_some ht] at hk
      cases touching with
      | false => exact .inl (by simpa using hk.symm)
      | true => exact .inr ⟨rfl, x, rfl, by simpa using hk.symm⟩

/-- Respaced chunks are those of their own text. -/
theorem Written.respacedArguments (h : Written ks) (hargs : ∀ k ∈ ks, k.isArgument = true) :
    Written (respacedArguments touching ks) := by
  induction ks generalizing touching with
  | nil => exact .nil
  | cons k ks ih =>
    rw [List.forall_mem_cons] at hargs
    obtain ⟨hk, hks, hmeets⟩ := Written.cons_iff.1 h
    cases ht : k.token with
    | none =>
      rw [respacedArguments_of_none ht]
      exact ih hks hargs.2
    | some t =>
      have htail : Written (k.respaced :: HttpdConf.respacedArguments true ks) := by
        refine Written.cons_iff.2 ⟨hk.respaced, ih hks hargs.2, fun y hy => ?_⟩
        obtain ⟨x, hx⟩ : ∃ x, x ∈ ks.head? := by
          cases ks with
          | nil => simp [HttpdConf.respacedArguments] at hy
          | cons x ks => exact ⟨x, rfl⟩
        have harg := hargs.2 x (List.mem_of_mem_head? hx)
        rcases mem_head?_respacedArguments hy with rfl | ⟨-, x', hx', rfl⟩
        · have hne := Chunk.ne_comment_of_meets (hmeets x hx) harg
          rw [Chunk.respaced_of_ne_comment hne]
          exact Chunk.meets_space hne
        · obtain rfl : x = x' := Option.some.inj (hx.symm.trans hx')
          exact Chunk.meets_respaced (hmeets x hx) (hks.isLexical x (List.mem_of_mem_head? hx)) harg
      rw [respacedArguments_of_some ht]
      cases touching with
      | false => exact Written.cons_iff.2 ⟨.blank rfl, htail, fun y _ => rfl⟩
      | true => exact htail

end

/-! ## Arguments of open tags -/

/-- The chunks of an open tag after its name with one space in front of each token. -/
def respacedTagArguments : List Chunk → List Chunk
  | [] => []
  | k :: ks =>
    match k.token with
    | none => respacedTagArguments ks
    | some _ => .blank ' ' :: k :: respacedTagArguments ks

section

variable {k : Chunk} {ks : List Chunk}

theorem respacedTagArguments_of_none (h : k.token = none) :
    respacedTagArguments (k :: ks) = respacedTagArguments ks := by
  rw [respacedTagArguments, h]

theorem respacedTagArguments_of_some {t : Token} (h : k.token = some t) :
    respacedTagArguments (k :: ks) = .blank ' ' :: k :: respacedTagArguments ks := by
  rw [respacedTagArguments, h]

/-- A token in an open tag is an argument with its own text, and ends before a space and before
the `>`. -/
theorem Chunk.IsLexical.exists_tagArgument (h : k.IsLexical) {t : Token} (ht : k.token = some t)
    (harg : k.isTagArgument = true) :
    ∃ a, k.token.bind Token.tagArgument? = some a ∧ k.text = a.toList ∧
      k.meets (.blank ' ') = true ∧ k.meets .tagEnd = true := by
  cases h with
  | quoted _ => exact ⟨_, rfl, rfl, rfl, rfl⟩
  | word _ _ _ => exact ⟨_, rfl, rfl, rfl, rfl⟩
  | less => exact ⟨_, rfl, rfl, rfl, rfl⟩
  | _ => simp [isTagArgument, Token.tagArgument?] at ht harg

theorem tagArguments_cons (k : Chunk) (ks : List Chunk) :
    tagArguments (k :: ks) = (k.token.bind Token.tagArgument?).toList ++ tagArguments ks := by
  rw [tagArguments, tagArguments, List.filterMap_cons]
  cases k.token.bind Token.tagArgument? <;> rfl

/-- The text of the respaced chunks has each argument of the tag after a space. -/
theorem textOf_respacedTagArguments (hargs : ∀ k ∈ ks, k.isTagArgument = true)
    (hlex : ∀ k ∈ ks, k.IsLexical) :
    textOf (parameterChunks (tagArguments ks)) = textOf (respacedTagArguments ks) := by
  induction ks with
  | nil => rfl
  | cons k ks ih =>
    rw [List.forall_mem_cons] at hargs hlex
    have hrest := ih hargs.2 hlex.2
    cases ht : k.token with
    | none =>
      rw [respacedTagArguments_of_none ht, tagArguments_cons, ht, ← hrest]
      rfl
    | some t =>
      obtain ⟨a, ha, htext, -⟩ := hlex.1.exists_tagArgument ht hargs.1
      rw [respacedTagArguments_of_some ht, tagArguments_cons, ha]
      simp [hrest, htext]

/-- The respaced chunks make the same arguments. -/
theorem tagArguments_respacedTagArguments :
    tagArguments (respacedTagArguments ks) = tagArguments ks := by
  induction ks with
  | nil => rfl
  | cons k ks ih =>
    cases ht : k.token with
    | none =>
      rw [respacedTagArguments_of_none ht, ih, tagArguments_cons, ht]
      rfl
    | some t =>
      rw [respacedTagArguments_of_some ht, tagArguments_cons, tagArguments_cons, ih,
        tagArguments_cons]
      rfl

theorem isTagArgument_of_mem_respacedTagArguments (hargs : ∀ k ∈ ks, k.isTagArgument = true)
    (hk : k ∈ respacedTagArguments ks) : k.isTagArgument = true := by
  induction ks with
  | nil => simp [respacedTagArguments] at hk
  | cons x ks ih =>
    rw [List.forall_mem_cons] at hargs
    cases ht : x.token with
    | none =>
      rw [respacedTagArguments_of_none ht] at hk
      exact ih hargs.2 hk
    | some t =>
      rw [respacedTagArguments_of_some ht, List.mem_cons, List.mem_cons] at hk
      rcases hk with rfl | rfl | hk
      · rfl
      · exact hargs.1
      · exact ih hargs.2 hk

/-- What starts the rest of a tag is a space or the `>`. -/
theorem mem_head?_respacedTagArguments
    (hk : k ∈ (respacedTagArguments ks ++ [Chunk.tagEnd]).head?) :
    k = .blank ' ' ∨ k = .tagEnd := by
  induction ks with
  | nil => exact .inr (by simpa [respacedTagArguments] using hk.symm)
  | cons x ks ih =>
    cases ht : x.token with
    | none =>
      rw [respacedTagArguments_of_none ht] at hk
      exact ih hk
    | some t =>
      rw [respacedTagArguments_of_some ht] at hk
      exact .inl (by simpa using hk.symm)

/-- Respaced chunks up to the `>` are those of their own text. -/
theorem Written.respacedTagArguments (hlex : ∀ k ∈ ks, k.IsLexical)
    (hargs : ∀ k ∈ ks, k.isTagArgument = true) :
    Written (respacedTagArguments ks ++ [.tagEnd]) := by
  induction ks with
  | nil => exact Written.cons_iff.2 ⟨.tagEnd, .nil, by simp⟩
  | cons k ks ih =>
    rw [List.forall_mem_cons] at hargs hlex
    have hrest := ih hlex.2 hargs.2
    cases ht : k.token with
    | none =>
      rw [respacedTagArguments_of_none ht]
      exact hrest
    | some t =>
      obtain ⟨a, -, -, hspace, hend⟩ := hlex.1.exists_tagArgument ht hargs.1
      rw [respacedTagArguments_of_some ht]
      refine Written.cons_iff.2 ⟨.blank rfl, Written.cons_iff.2 ⟨hlex.1, hrest, fun y hy => ?_⟩,
        fun y _ => rfl⟩
      rcases mem_head?_respacedTagArguments hy with rfl | rfl
      · exact hspace
      · exact hend

end

/-! ## Statements -/

/-- The text of a statement that is written anew from its name and arguments. A block has nothing
inside. -/
def FragmentKind.regenerated? : FragmentKind → Option String
  | .directive name arguments => some (Statement.line ⟨name, arguments, none⟩)
  | .block name arguments =>
    some ("<" ++ Statement.line ⟨name, arguments, none⟩ ++ ">" ++ "\n" ++ "</" ++ name ++ ">")
  | .comment _ | .document => none

namespace Layout

mutual
/-- All fragments of a layout that can be read are shown by layouts that can. -/
theorem exists_layout_of_shows {source : SourceFile} (l : Layout) {f g : Fragment}
    (h : l.Shows source f) (hl : l.Grammatical) (hwritten : Written l.own)
    (hg : g ∈ f :: f.descendants) :
    ∃ l : Layout, l.Shows source g ∧ l.Grammatical ∧ Written l.own := by
  rcases List.mem_cons.1 hg with rfl | hg
  · exact ⟨l, h, hl, hwritten⟩
  rw [Fragment.descendants_eq] at hg
  match l with
  | .comment gap text =>
    rw [Shows] at h
    simp [h.2.1, Fragment.descendantsOfAll] at hg
  | .directive gap name arguments =>
    rw [Shows] at h
    simp [h.2.1, Fragment.descendantsOfAll] at hg
  | .block gap name arguments inside trailing closing blanks =>
    rw [Shows] at h
    rw [own] at hwritten
    exact exists_layout_of_showsAll inside h.2.1 hl.2.2.1
      (Written.append_iff.1 (Written.append_iff.1 hwritten).2.1).1 hg

theorem exists_layout_of_showsAll {source : SourceFile} {last : Bool} {trailing : List Chunk}
    (ls : List Layout) {fs : List Fragment} {g : Fragment} (h : ShowsAll source ls fs)
    (hls : GrammaticalAll last trailing ls) (hwritten : Written (ownAll ls))
    (hg : g ∈ Fragment.descendantsOfAll fs) :
    ∃ l : Layout, l.Shows source g ∧ l.Grammatical ∧ Written l.own := by
  match ls with
  | [] =>
    rw [ShowsAll] at h
    simp [h, Fragment.descendantsOfAll] at hg
  | l :: ls =>
    rw [ShowsAll] at h
    obtain ⟨f, rest, rfl, hf, hrest⟩ := h
    obtain ⟨hl, -, hls⟩ := hls
    rw [ownAll_cons, Written.append_iff, Written.append_iff] at hwritten
    rw [Fragment.descendantsOfAll, ← List.cons_append] at hg
    rcases List.mem_append.1 hg with hg | hg
    · exact exists_layout_of_shows l hf hl hwritten.2.1.1 hg
    · exact exists_layout_of_showsAll ls hrest hls hwritten.2.1.2.1 hg
end

end Layout

/-- Every fragment of a file shows a grammatical layout of written chunks. -/
theorem Fragment.exists_layout_of_read {source : SourceFile} {document f : Fragment}
    (h : Fragment.read source = .ok document) (hf : f ∈ document.descendants) :
    ∃ l : Layout, l.Shows source f ∧ l.Grammatical ∧ Written l.own := by
  obtain ⟨p, hp, -, -, -, hchildren⟩ := Fragment.exists_page_of_read h
  rw [Fragment.descendants_eq] at hf
  exact Layout.exists_layout_of_showsAll p.statements hchildren hp.grammatical
    (Written.append_iff.1 hp.written).1 hf

/-- The name of an open tag is that of a close tag. -/
theorem isLexical_closeTag_of_openTag {name : String} (h : (Chunk.openTag name).IsLexical) :
    (Chunk.closeTag name []).IsLexical := by
  generalize hk : Chunk.openTag name = k at h
  have htoken := congrArg Chunk.token hk
  cases h with
  | @openTag c cs hc hcs =>
    obtain rfl : name = String.ofList (c :: cs) := by simpa using htoken
    exact .closeTag hc hcs (by simp)
  | _ => simp at htoken

namespace Layout

/-- What the fragment of a layout stands for. -/
def kind : Layout → FragmentKind
  | comment _ text => .comment (commentText text)
  | directive _ name arguments => .directive name (gatherArguments false [] arguments)
  | block _ name arguments _ _ _ _ => .block name (tagArguments arguments)

/-- The statement alone, with single spaces between its arguments. A block has nothing inside. -/
def respaced : Layout → Layout
  | comment _ text => .comment [] text
  | directive _ name arguments => .directive [] name (respacedArguments false arguments)
  | block _ name arguments _ _ _ _ =>
    .block [] name (respacedTagArguments arguments) [] [.newline ['\n']] name []

variable {l : Layout}

theorem Shows.kind_eq {source : SourceFile} {f : Fragment} (h : l.Shows source f) :
    f.kind = l.kind := by
  cases l <;> rw [Shows] at h <;> exact h.1

theorem place_kind (source : SourceFile) (offset : Nat) :
    (l.place source offset).kind = l.kind := by
  cases l <;> rw [place] <;> rfl

theorem respaced_gap : l.respaced.gap = [] := by
  cases l <;> rfl

theorem place_respaced_children (source : SourceFile) (offset : Nat) :
    (l.respaced.place source offset).children = [] := by
  cases l <;> rw [respaced, place] <;> rfl

theorem Grammatical.respaced (h : l.Grammatical) : l.respaced.Grammatical := by
  cases l with
  | comment gap text => rfl
  | directive gap name arguments =>
    obtain ⟨-, hargs, -⟩ := h
    rw [List.all_eq_true] at hargs
    exact ⟨rfl, List.all_eq_true.2 fun k => isArgument_of_mem_respacedArguments hargs,
      fun k => isSome_token_getLast?_respacedArguments⟩
  | block gap name arguments inside trailing closing blanks =>
    obtain ⟨-, hargs, -, -⟩ := h
    rw [List.all_eq_true] at hargs
    exact ⟨rfl, List.all_eq_true.2 fun k => isTagArgument_of_mem_respacedTagArguments hargs, rfl,
      Text.sameName_refl _⟩

/-- A respaced statement says the same. -/
theorem Grammatical.respaced_kind (h : l.Grammatical) : l.respaced.kind = l.kind := by
  cases l with
  | comment gap text => rfl
  | directive gap name arguments =>
    rw [Layout.respaced, kind, kind,
      gatherArguments_respacedArguments (List.all_eq_true.1 h.2.1) (by simp)]
  | block gap name arguments inside trailing closing blanks =>
    rw [Layout.respaced, kind, kind, tagArguments_respacedTagArguments]

/-- A respaced statement is made of the chunks of its own text. -/
theorem Grammatical.written_respaced (h : l.Grammatical) (hwritten : Written l.own) :
    Written l.respaced.own := by
  cases l with
  | comment gap text => simpa [Layout.respaced, own] using hwritten
  | directive gap name arguments =>
    rw [own, Written.cons_iff] at hwritten
    rw [Layout.respaced, own, Written.cons_iff]
    refine ⟨hwritten.1, hwritten.2.1.respacedArguments (List.all_eq_true.1 h.2.1), fun y hy => ?_⟩
    rcases mem_head?_respacedArguments hy with rfl | ⟨hfalse, -⟩
    · exact Chunk.meets_space (by simp)
    · simp at hfalse
  | block gap name arguments inside trailing closing blanks =>
    have hlex : ∀ k ∈ openTagChunks name arguments, k.IsLexical := fun k hk =>
      hwritten.isLexical k (by rw [own]; exact List.mem_append_left _ hk)
    have hname : (Chunk.openTag name).IsLexical := hlex _ (by simp [openTagChunks])
    have hopen : Written (openTagChunks name (respacedTagArguments arguments)) := by
      have hrest := Written.respacedTagArguments
        (fun k hk => hlex k (by simp [openTagChunks, hk])) (List.all_eq_true.1 h.2.1)
      refine Written.cons_iff.2 ⟨hname, hrest, fun y hy => ?_⟩
      rcases mem_head?_respacedTagArguments hy with rfl | rfl <;> rfl
    have hclose : Written [Chunk.newline ['\n'], .closeTag name []] :=
      Written.cons_iff.2 ⟨.newline (.inl rfl),
        Written.cons_iff.2 ⟨isLexical_closeTag_of_openTag hname, .nil, by simp⟩, fun y _ => rfl⟩
    rw [Layout.respaced, own, ownAll_nil]
    refine Written.append_iff.2 ⟨hopen, hclose, fun x hx y _ => ?_⟩
    rw [getLast?_openTagChunks] at hx
    obtain rfl : Chunk.tagEnd = x := Option.some.inj hx
    rfl

/-- A respaced statement has the text of one that is written anew. -/
theorem Grammatical.textOf_respaced (h : l.Grammatical) (hwritten : Written l.own) {text : String}
    (htext : l.kind.regenerated? = some text) : text.toList = textOf l.respaced.own := by
  cases l with
  | comment gap text => simp [kind, FragmentKind.regenerated?] at htext
  | directive gap name arguments =>
    obtain rfl := Option.some.inj htext
    rw [own, Written.cons_iff] at hwritten
    rw [textOf_line, Layout.respaced, own, textOf_cons, textOf_cons,
      textOf_respacedArguments (List.all_eq_true.1 h.2.1) hwritten.2.1.isLexical (by simp)]
    rfl
  | block gap name arguments inside trailing closing blanks =>
    obtain rfl := Option.some.inj htext
    have hlex : ∀ k ∈ arguments, k.IsLexical := fun k hk =>
      hwritten.isLexical k (by simp [own, openTagChunks, hk])
    have hopen : ("<" ++ Statement.line ⟨name, tagArguments arguments, none⟩ ++ ">").toList =
        textOf (openTagChunks name (respacedTagArguments arguments)) := by
      rw [textOf_tagLine, openTagChunks, openTagChunks, textOf_cons, textOf_append,
        textOf_respacedTagArguments (List.all_eq_true.1 h.2.1) hlex, ← textOf_append, textOf_cons]
    simp only [String.toList_append] at hopen
    rw [Layout.respaced, own, textOf_append, ← hopen]
    simp

end Layout

/-- A statement that is written anew from its name and arguments is read back: the file has one
fragment, with the same name and arguments and nothing inside, and it is written anew in the same
way. -/
theorem Fragment.read_regenerated {source : SourceFile} {document f : Fragment} {text : String}
    (hread : Fragment.read source = .ok document) (hf : f ∈ document.descendants)
    (htext : f.kind.regenerated? = some text) (path : Path) :
    ∃ d g, Fragment.read ⟨path, text⟩ = .ok d ∧ d.children = [g] ∧ g.kind = f.kind ∧
      g.children = [] ∧ g.kind.regenerated? = some text := by
  obtain ⟨l, hshows, hl, hwritten⟩ := Fragment.exists_layout_of_read hread hf
  rw [hshows.kind_eq] at htext ⊢
  have hchunks : Page.chunks ⟨[l.respaced], []⟩ = l.respaced.own := by
    simp [Page.chunks, Layout.respaced_gap]
  have hlegible : Page.Legible ⟨[l.respaced], []⟩ :=
    ⟨by rw [hchunks]; exact hl.written_respaced hwritten,
      hl.respaced, fun _ => .inr ⟨rfl, rfl⟩, rfl⟩
  have hkind : (l.respaced.place ⟨path, text⟩ 0).kind = l.kind := by
    rw [Layout.place_kind, hl.respaced_kind]
  refine ⟨_, l.respaced.place ⟨path, text⟩ 0, Fragment.read_eq_ok_iff.2 ⟨_, hlegible, ?_, rfl⟩,
    rfl, hkind, Layout.place_respaced_children .., by rw [hkind, htext]⟩
  rw [hchunks]
  exact (hl.textOf_respaced hwritten htext).symm

/-- A line of glued tokens that goes on after a line break and ends in a `#`, and an open tag. -/
theorem Fragment.read_regenerated_mixed :
    ∃ document f g, Fragment.read ⟨⟨"site.conf"⟩,
        "Log \"%h\"%>s \\\r\n a<d </ #p\u00a0q\n<Limit\t<\"GET\" >\n</LIMIT>\n"⟩ = .ok document ∧
      f ∈ document.descendants ∧ g ∈ document.descendants ∧
      f.kind.regenerated? = some "Log \"%h\"%>s a<d </ #p q" ∧
      g.kind.regenerated? = some "<Limit < \"GET\">\n</Limit>" ∧
      (∃ d h, Fragment.read ⟨⟨"new.conf"⟩, "Log \"%h\"%>s a<d </ #p q"⟩ = .ok d ∧
        d.children = [h] ∧ h.kind = f.kind ∧ h.children = [] ∧
        h.kind.regenerated? = some "Log \"%h\"%>s a<d </ #p q") ∧
      ∃ d h, Fragment.read ⟨⟨"new.conf"⟩, "<Limit < \"GET\">\n</Limit>"⟩ = .ok d ∧
        d.children = [h] ∧ h.kind = g.kind ∧ h.children = [] ∧
        h.kind.regenerated? = some "<Limit < \"GET\">\n</Limit>" := by
  obtain ⟨document, hread⟩ := Fragment.exists_read ⟨⟨"site.conf"⟩,
    "Log \"%h\"%>s \\\r\n a<d </ #p\u00a0q\n<Limit\t<\"GET\" >\n</LIMIT>\n"⟩ (by decide +kernel)
  have hfacts : ((Fragment.read ⟨⟨"site.conf"⟩,
      "Log \"%h\"%>s \\\r\n a<d </ #p\u00a0q\n<Limit\t<\"GET\" >\n</LIMIT>\n"⟩).toOption.any
        fun document => (document.descendants.any fun f => f.kind.regenerated? ==
          some "Log \"%h\"%>s a<d </ #p q") &&
        document.descendants.any fun g => g.kind.regenerated? ==
          some "<Limit < \"GET\">\n</Limit>") = true := by
    decide +kernel
  simp only [hread, Except.toOption, Option.any_some, Bool.and_eq_true, List.any_eq_true,
    beq_iff_eq] at hfacts
  obtain ⟨⟨f, hf, hfline⟩, g, hg, hgline⟩ := hfacts
  exact ⟨document, f, g, hread, hf, hg, hfline, hgline,
    Fragment.read_regenerated hread hf hfline ⟨"new.conf"⟩,
    Fragment.read_regenerated hread hg hgline ⟨"new.conf"⟩⟩

end HttpdConf
