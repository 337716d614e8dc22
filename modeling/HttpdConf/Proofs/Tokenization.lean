import HttpdConf.Proofs.Tiling

/-!
# Tokens cover their text

The tokens of a text stand in it one after the other, each at the characters that it is spelled
with. What is left out around them are blanks and joined lines, so the text can be put together
again from its tokens and the gaps between them. And no token is cut short: what comes after a word,
a comment, an open tag or a single `<` does not go on with it.

## Main definitions

* `Token.Spells`: the characters that a token can stand for
* `Token.EndsAt`: what can come after a token
* `SkippedText`: a text that is passed over between tokens
* `gapsAround`: the spans before, between and after some lexemes
* `Tokenization`: lexemes that are a text, cut into tokens

## Main results

* `Written.tokenization`: the lexemes of written chunks are a tokenization of their text
* `tokenization_of_scan`: scanning a text gives a tokenization of it
-/

namespace HttpdConf

/-! ## Texts of tokens -/

/-- The characters that a token stands for. Only close tags and line breaks can be spelled in
several ways. -/
inductive Token.Spells : Token → List Char → Prop
  | newline {br : List Char} (hbr : IsBreak br) : Spells .newline br
  | openTag {name : String} : Spells (.openTag name) ('<' :: name.toList)
  | closeTag {name : String} {gap : List Char} (hgap : ∀ c ∈ gap, c = ' ' ∨ c = '\t') :
      Spells (.closeTag name) ('<' :: '/' :: (name.toList ++ (gap ++ ['>'])))
  | tagEnd : Spells .tagEnd ['>']
  | less : Spells .less ['<']
  | comment {text : String} : Spells (.comment text) text.toList
  | quoted {text : String} : Spells (.quoted text) text.toList
  | word {text : String} : Spells (.word text) text.toList

/-- A text that ends the word before it: nothing, one of the characters that no word has, or a
joined line. -/
inductive StopsWord : List Char → Prop
  | nil : StopsWord []
  | separator {c : Char} {cs : List Char}
      (hc : c ∈ [' ', '\t', '\x0c', '\r', '\n', '"', '<', '>']) : StopsWord (c :: cs)
  | join {br cs : List Char} (hbr : IsBreak br) : StopsWord ('\\' :: (br ++ cs))

/-- What can come after a token that was read as far as it goes. -/
def Token.EndsAt (rest : List Char) : Token → Prop
  | .word text =>
    StopsWord rest ∧ (text.toList.getLast? = some '\\' → startsWithBreak rest = false)
  | .comment text => '\n' ∉ text.toList ∧ (rest = [] ∨ startsWithBreak rest = true)
  | .openTag _ => ∀ c ∈ rest.head?, isNameChar c = false
  | .less => ∀ c more, rest = c :: more ∨ rest = '/' :: c :: more → isNameStart c = false
  | _ => True

/-- A text of blanks and joined lines only. -/
inductive SkippedText : List Char → Prop
  | nil : SkippedText []
  | blank {c : Char} {cs : List Char} (hc : c = ' ' ∨ c = '\t' ∨ c = '\x0c')
      (hcs : SkippedText cs) : SkippedText (c :: cs)
  | join {br cs : List Char} (hbr : IsBreak br) (hcs : SkippedText cs) :
      SkippedText ('\\' :: (br ++ cs))

/-- The spans before, between and after some lexemes, from one offset to another. -/
def gapsAround (start stop : Nat) : List Lexeme → List Span
  | [] => [⟨start, stop⟩]
  | x :: xs => ⟨start, x.span.start⟩ :: gapsAround x.span.stop stop xs

/-- The lexemes are the text of the file cut into tokens: each stands for the characters under its
span, only blanks and joined lines are left out, and no token could be longer. -/
structure Tokenization (source : SourceFile) (xs : List Lexeme) : Prop where
  fits : ∀ x ∈ xs, x.span.Fits source ∧ x.span.start < x.span.stop
  ordered : xs.Pairwise fun x y => x.span.stop ≤ y.span.start
  spells : ∀ x ∈ xs, x.token.Spells (source.slice x.span).toList
  gaps : ∀ s ∈ gapsAround 0 source.length xs, s.Fits source ∧ SkippedText (source.slice s).toList
  endsAt : ∀ x ∈ xs, x.token.EndsAt (source.slice ⟨x.span.stop, source.length⟩).toList

variable {source : SourceFile} {k : Chunk} {ks blanks : List Chunk} {t : Token}

namespace Chunk

theorem IsLexical.spells (hk : k.IsLexical) (ht : k.token = some t) : t.Spells k.text := by
  cases hk <;> cases ht <;> constructor <;> assumption

theorem IsLexical.skippedText (hk : k.IsLexical) (ht : k.token = none) {cs : List Char}
    (hcs : SkippedText cs) : SkippedText (k.text ++ cs) := by
  cases hk with
  | blank hc =>
    simp only [isSeparator, Bool.or_eq_true, beq_iff_eq, or_assoc] at hc
    exact .blank hc hcs
  | join hbr => exact .join hbr hcs
  | _ => simp at ht

theorem IsLexical.newline_notMem {text : String} (hk : k.IsLexical)
    (ht : k.token = some (.comment text)) : '\n' ∉ text.toList := by
  cases hk with
  | @comment body hbody =>
    obtain rfl : String.ofList ('#' :: body) = text := by simpa using ht
    rw [String.toList_ofList, List.mem_cons, not_or]
    exact ⟨by decide, fun hmem => (hbody _ hmem).2 rfl⟩
  | _ => simp at ht

end Chunk

theorem skippedText_textOf (hlex : ∀ k ∈ ks, k.IsLexical) (hks : ∀ k ∈ ks, k.token = none) :
    SkippedText (textOf ks) := by
  induction ks with
  | nil => exact .nil
  | cons k ks ih =>
    rw [textOf_cons]
    exact (hlex k (by simp)).skippedText (hks k (by simp))
      (ih (fun x hx => hlex x (by simp [hx])) fun x hx => hks x (by simp [hx]))

/-! ## What follows a token -/

/-- A text with which no word goes on ends the word before it. -/
theorem stopsWord_of_spanWord_eq_nil {cs : List Char} (h : (spanWord cs).1 = []) :
    StopsWord cs := by
  cases cs with
  | nil => exact .nil
  | cons c cs =>
    rcases spanWord_fst_cons.1 h with hc | ⟨rfl, hbreak⟩
    · simp only [isWordChar, isSeparator, Bool.not_eq_false', Bool.or_eq_true, beq_iff_eq,
        or_assoc] at hc
      exact .separator (by simpa using hc)
    · obtain ⟨br, more, hbr, rfl⟩ := startsWithBreak_iff.1 hbreak
      exact .join hbr

/-- A text that makes no tag of a `<` does not start with a name, with a slash before it or not. -/
theorem isNameStart_eq_false_of_startsTag {cs : List Char} (h : Chunk.startsTag cs = false)
    (c : Char) (more : List Char) (hcs : cs = c :: more ∨ cs = '/' :: c :: more) :
    isNameStart c = false := by
  rcases hcs with rfl | rfl
  · by_cases hslash : c = '/'
    · rw [hslash]
      rfl
    · rwa [Chunk.startsTag_cons hslash] at h
  · exact h

/-- A token of written chunks was read as far as it goes. -/
theorem Written.endsAt (h : Written (k :: ks)) (ht : k.token = some t) : t.EndsAt (textOf ks) := by
  have hstops := h.stops
  unfold Chunk.Stops at hstops
  rw [ht] at hstops
  cases t with
  | word text =>
    have htext : k.text = text.toList := by rw [(h.isLexical k (by simp)).eq_word ht, Chunk.word]
    exact ⟨stopsWord_of_spanWord_eq_nil hstops.1, htext ▸ hstops.2⟩
  | comment text =>
    refine ⟨(h.isLexical k (by simp)).newline_notMem ht, ?_⟩
    -- a carriage return alone would end the comment too, but then it would be no written chunk
    cases ks with
    | nil => exact .inl rfl
    | cons y ks =>
      have hmeets : k.meets y = true := h.isChain.rel
      rw [Chunk.meets, ht] at hmeets
      exact .inr (((h.isLexical y (by simp)).startsWithBreak_iff _).2 (beq_iff_eq.1 hmeets))
  | openTag name => exact hstops
  | less => exact isNameStart_eq_false_of_startsTag hstops
  | _ => trivial

/-! ## Spans of chunks -/

/-- Chunks with the text of a file cover all of it. -/
theorem Span.covers_all (h : textOf ks = source.text.toList) :
    Span.Covers source ⟨0, source.length⟩ ks :=
  ⟨[], [], by simp [h], by simp [SourceFile.length, ← Text.byteLength_toList, extent, h]⟩

/-- A lexeme covers its chunk, and what follows it are the chunks after that one. -/
theorem exists_covers_of_mem_lexemesAt (htext : textOf ks = source.text.toList) {x : Lexeme}
    (hx : x ∈ lexemesAt 0 ks) :
    ∃ as k bs, ks = as ++ k :: bs ∧ k.token = some x.token ∧ x.span.Covers source [k] ∧
      Span.Covers source ⟨x.span.stop, source.length⟩ bs := by
  obtain ⟨as, k, bs, rfl, htoken, hspan⟩ := exists_of_mem_lexemesAt hx
  have hall := (Span.covers_all htext).append.2
  rw [← List.singleton_append] at hall
  obtain ⟨hself, hrest⟩ := hall.append
  have hextent : extent [k] = Text.byteLength k.text := by simp
  rw [hspan]
  rw [hextent] at hself hrest
  exact ⟨as, k, bs, rfl, htoken, hself, hrest⟩

/-- Lexemes stand in order from the first offset on. -/
theorem pairwise_lexemesAt (offset : Nat) (ks : List Chunk) :
    (lexemesAt offset ks).Pairwise fun x y => x.span.stop ≤ y.span.start := by
  induction ks generalizing offset with
  | nil => exact .nil
  | cons k ks ih =>
    rw [lexemesAt, List.pairwise_append]
    refine ⟨?_, ih _, fun x hx y hy => ?_⟩
    · cases k.lexeme? offset <;> simp
    · obtain ⟨token, -, rfl⟩ := Option.map_eq_some_iff.1 (Option.mem_toList.1 hx)
      obtain ⟨as, k', bs, -, -, hspan⟩ := exists_of_mem_lexemesAt hy
      rw [hspan]
      exact Nat.le_add_right ..

/-- Between the lexemes of some chunks are the chunks that are no tokens. -/
theorem exists_covers_of_mem_gapsAround {start stop : Nat} {s : Span}
    (hblanks : ∀ k ∈ blanks, k.token = none)
    (hcovers : Span.Covers source ⟨start, stop⟩ (blanks ++ ks))
    (hs : s ∈ gapsAround start stop (lexemesAt (start + extent blanks) ks)) :
    ∃ gap, s.Covers source gap ∧ (∀ k ∈ gap, k ∈ blanks ++ ks) ∧ ∀ k ∈ gap, k.token = none := by
  -- the gap under way grows by each chunk without a token, and starts anew after one with a token
  induction ks generalizing start blanks with
  | nil =>
    obtain rfl : s = ⟨start, stop⟩ := by simpa [lexemesAt, gapsAround] using hs
    rw [List.append_nil] at hcovers
    exact ⟨blanks, hcovers, by simp, hblanks⟩
  | cons k ks ih =>
    rw [← List.singleton_append, ← List.append_assoc] at hcovers
    rw [lexemesAt] at hs
    cases htoken : k.token with
    | none =>
      obtain ⟨gap, hgap, hmem, hnone⟩ := @ih (blanks ++ [k]) start
        (by simpa [or_imp, forall_and] using ⟨hblanks, htoken⟩) hcovers
        (by simpa [Chunk.lexeme?, htoken, Nat.add_assoc] using hs)
      exact ⟨gap, hgap, by simpa using hmem, hnone⟩
    | some token =>
      obtain ⟨hbefore, hafter⟩ := hcovers.append
      simp only [Chunk.lexeme?, htoken, Option.map_some, Option.toList_some, List.singleton_append,
        gapsAround] at hs
      rcases List.mem_cons.1 hs with rfl | hs
      · obtain ⟨hgap, -⟩ := hbefore.append
        exact ⟨blanks, hgap, fun x hx => by simp [hx], hblanks⟩
      · rw [extent_append, extent_cons, extent_nil, Nat.add_zero, ← Nat.add_assoc] at hafter
        obtain ⟨gap, hgap, hmem, hnone⟩ := @ih [] _ (by simp) (by simpa using hafter)
          (by simpa using hs)
        refine ⟨gap, hgap, fun x hx => ?_, hnone⟩
        simp [List.mem_append.1 (hmem x hx) |>.resolve_left (by simp)]

/-! ## Tokenizations -/

/-- The lexemes of written chunks are a tokenization of their text. -/
theorem Written.tokenization (hks : Written ks) (htext : textOf ks = source.text.toList) :
    Tokenization source (lexemesAt 0 ks) where
  fits x hx := by
    obtain ⟨as, k, bs, rfl, -, hself, -⟩ := exists_covers_of_mem_lexemesAt htext hx
    refine ⟨hself.fits, ?_⟩
    -- a token has a character, so its span is not empty
    have hpos : 0 < extent [k] := extent_pos (by simpa using hks.isLexical k (by simp)) (by simp)
    have hstop : x.span.stop = x.span.start + extent [k] := hself.stop_eq
    omega
  ordered := pairwise_lexemesAt 0 ks
  spells x hx := by
    obtain ⟨as, k, bs, rfl, htoken, hself, -⟩ := exists_covers_of_mem_lexemesAt htext hx
    rw [hself.slice_eq, String.toList_ofList, textOf_cons, textOf_nil, List.append_nil]
    exact (hks.isLexical k (by simp)).spells htoken
  gaps s hs := by
    obtain ⟨gap, hgap, hmem, hnone⟩ := @exists_covers_of_mem_gapsAround _ _ [] _ _ _ (by simp)
      (Span.covers_all htext) hs
    refine ⟨hgap.fits, ?_⟩
    rw [hgap.slice_eq, String.toList_ofList]
    exact skippedText_textOf (fun k hk => hks.isLexical k (hmem k hk)) hnone
  endsAt x hx := by
    obtain ⟨as, k, bs, rfl, htoken, -, hrest⟩ := exists_covers_of_mem_lexemesAt htext hx
    rw [hrest.slice_eq, String.toList_ofList]
    exact (Written.append_iff.1 hks).2.1.endsAt htoken

/-- Scanning a text loses nothing of it, and reads every token as far as it goes. -/
theorem tokenization_of_scan {xs : List Lexeme} (h : scan source.text = .ok xs) :
    Tokenization source xs := by
  obtain ⟨ks, hks, htext, rfl⟩ := scanFrom_eq_ok_iff.1 h
  exact hks.tokenization htext

/-- A text with a backslash before a joined line, a `CR LF`, a character of two bytes and tokens
that touch is cut into tokens. -/
theorem tokenization_of_scan_joined :
    ∃ xs, xs.map Lexeme.token = [.openTag "A", .quoted "\"é\\\"\"", .word "%", .tagEnd, .word "s",
        .tagEnd, .newline, .word "B", .word "a\\", .word "1", .less, .comment "# c", .newline,
        .closeTag "A"] ∧
      scan "<A \"é\\\"\" %>s>\r\nB a\\\\\n1 \\\n< # c\n</A\t>" = .ok xs ∧
      Tokenization ⟨⟨"site.conf"⟩, "<A \"é\\\"\" %>s>\r\nB a\\\\\n1 \\\n< # c\n</A\t>"⟩ xs := by
  have htokens : (scan "<A \"é\\\"\" %>s>\r\nB a\\\\\n1 \\\n< # c\n</A\t>").toOption.map
      (List.map Lexeme.token) = some [.openTag "A", .quoted "\"é\\\"\"", .word "%", .tagEnd,
        .word "s", .tagEnd, .newline, .word "B", .word "a\\", .word "1", .less, .comment "# c",
        .newline, .closeTag "A"] := by
    decide +kernel
  cases hscan : scan "<A \"é\\\"\" %>s>\r\nB a\\\\\n1 \\\n< # c\n</A\t>" with
  | error e => simp [hscan, Except.toOption] at htokens
  | ok xs =>
    rw [hscan] at htokens
    exact ⟨xs, Option.some.inj htokens, rfl, tokenization_of_scan hscan⟩

end HttpdConf
