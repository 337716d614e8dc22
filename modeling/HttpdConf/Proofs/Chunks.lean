import HttpdConf.Token
import Mathlib.Data.List.Chain
import Mathlib.Data.List.TakeWhile
import Mathlib.Tactic.Simps.Basic

/-!
# Chunks of configuration text

The scanner cuts a text into chunks: tokens, blanks, and backslashes that join lines. Which chunks
a text is cut into can be said without scanning it. Every chunk has one of a few lexical forms, and
no chunk goes on into the chunk after it; both are local conditions, so that texts can be put
together from parts and only the seams have to be looked at.

## Main definitions

* `Chunk`, `Chunk.IsLexical`: a piece of text without what follows, and the forms it can have
* `Chunk.meets`: whether a chunk ends where the next one starts
* `Written`: chunks that the scanner would make of their own text
* `lexemesAt`: the lexemes of chunks whose text starts at an offset

## Main results

* `scanFrom_textOf_append`: written chunks are scanned as they are before all they stop at
* `scanFrom_eq_ok_iff`: scanning succeeds exactly on the texts of written chunks, and gives their
  lexemes
-/

namespace HttpdConf

/-- A piece of text: the token it is, if it is one, and its characters. -/
structure Chunk where
  token : Option Token
  text : List Char
  deriving DecidableEq

/-- A line break, `LF` or `CR LF`. -/
def IsBreak (cs : List Char) : Prop := cs = ['\n'] ∨ cs = ['\r', '\n']

namespace Chunk

@[simps]
def blank (c : Char) : Chunk := ⟨none, [c]⟩

/-- A backslash that joins a line with the next one. -/
@[simps]
def join (br : List Char) : Chunk := ⟨none, '\\' :: br⟩

@[simps]
def newline (br : List Char) : Chunk := ⟨some .newline, br⟩

@[simps]
def comment (text : String) : Chunk := ⟨some (.comment text), text.toList⟩

@[simps]
def quoted (text : String) : Chunk := ⟨some (.quoted text), text.toList⟩

@[simps]
def word (text : String) : Chunk := ⟨some (.word text), text.toList⟩

@[simps]
def tagEnd : Chunk := ⟨some .tagEnd, ['>']⟩

@[simps]
def less : Chunk := ⟨some .less, ['<']⟩

@[simps]
def openTag (name : String) : Chunk := ⟨some (.openTag name), '<' :: name.toList⟩

/-- A close tag, with the blanks before its `>`. -/
@[simps]
def closeTag (name : String) (gap : List Char) : Chunk :=
  ⟨some (.closeTag name), '<' :: '/' :: (name.toList ++ (gap ++ ['>']))⟩

/-- The forms a chunk can have. -/
inductive IsLexical : Chunk → Prop
  | blank {c : Char} (hc : isSeparator c = true) : IsLexical (.blank c)
  | join {br : List Char} (hbr : IsBreak br) : IsLexical (.join br)
  | newline {br : List Char} (hbr : IsBreak br) : IsLexical (.newline br)
  | comment {body : List Char} (hbody : ∀ c ∈ body, c ≠ '\r' ∧ c ≠ '\n') :
      IsLexical (.comment (String.ofList ('#' :: body)))
  | quoted {body : List Char} (hbody : spanQuoted? body = some (body, [])) :
      IsLexical (.quoted (String.ofList ('"' :: body)))
  | word {c : Char} {more : List Char} (hc : isWordChar c = true) (hhash : c ≠ '#')
      (hmore : ∀ d ∈ more, isWordChar d = true) : IsLexical (.word (String.ofList (c :: more)))
  | tagEnd : IsLexical .tagEnd
  | less : IsLexical .less
  | openTag {c : Char} {name : List Char} (hc : isNameStart c = true)
      (hname : ∀ d ∈ name, isNameChar d = true) : IsLexical (.openTag (String.ofList (c :: name)))
  | closeTag {c : Char} {name gap : List Char} (hc : isNameStart c = true)
      (hname : ∀ d ∈ name, isNameChar d = true) (hgap : ∀ d ∈ gap, d = ' ' ∨ d = '\t') :
      IsLexical (.closeTag (String.ofList (c :: name)) gap)

/-- Whether a text after a `<` makes a tag of it. -/
def startsTag : List Char → Bool
  | '/' :: c :: _ => isNameStart c
  | c :: _ => isNameStart c
  | [] => false

/-- Whether `x` ends where `y` starts. Only comments, words, open tags and a single `<` can go on
into what follows; a word that ends in a backslash would lose it to a line break. -/
def meets (x y : Chunk) : Bool :=
  match x.token with
  | some (.comment _) => y.token == some .newline
  | some (.word _) =>
    match y.token with
    | some (.word _) | some (.comment _) => false
    | some .newline => x.text.getLast? != some '\\'
    | _ => true
  | some (.openTag _) => !(y.text.head?.any isNameChar)
  | some .less => !startsTag y.text
  | _ => true

/-- Whether `x` ends before the text `rest`. -/
def Stops (x : Chunk) (rest : List Char) : Prop :=
  match x.token with
  | some (.comment _) => ∀ c ∈ rest.head?, c = '\r' ∨ c = '\n'
  | some (.word _) =>
    (spanWord rest).1 = [] ∧ (x.text.getLast? = some '\\' → startsWithBreak rest = false)
  | some (.openTag _) => ∀ c ∈ rest.head?, isNameChar c = false
  | some .less => startsTag rest = false
  | _ => True

end Chunk

/-! ## Characters -/

theorem isNameChar_of_isNameStart {c : Char} (h : isNameStart c = true) : isNameChar c = true := by
  simp only [isNameStart, Bool.or_eq_true, beq_iff_eq] at h
  rcases h with h | rfl
  · simp [isNameChar, Char.isAlphanum, h]
  · rfl

theorem isWordChar_of_isNameChar {c : Char} (h : isNameChar c = true) : isWordChar c = true := by
  by_contra hc
  simp only [isWordChar, isSeparator, Bool.not_eq_true, Bool.not_eq_false',
    Bool.or_eq_true, beq_iff_eq] at hc
  rcases hc with (((((((rfl | rfl) | rfl) | rfl) | rfl) | rfl) | rfl) | rfl) <;> revert h <;> decide

theorem isNameChar_ne_backslash {c : Char} (h : isNameChar c = true) : c ≠ '\\' := by
  rintro rfl
  revert h
  decide

theorem startsWithBreak_append {br : List Char} (h : IsBreak br) (rest : List Char) :
    startsWithBreak (br ++ rest) = true := by
  rcases h with rfl | rfl <;> rfl

/-- A text starts with a line break when one of its leading parts is one. -/
theorem startsWithBreak_iff {cs : List Char} :
    startsWithBreak cs = true ↔ ∃ br rest, IsBreak br ∧ cs = br ++ rest := by
  constructor
  · intro h
    unfold startsWithBreak at h
    split at h
    · exact ⟨['\n'], _, .inl rfl, rfl⟩
    · exact ⟨['\r', '\n'], _, .inr rfl, rfl⟩
    · simp at h
  · rintro ⟨br, rest, hbr, rfl⟩
    exact startsWithBreak_append hbr rest

theorem startsWithBreak_of_isWordChar {c : Char} (hc : isWordChar c = true) (cs : List Char) :
    startsWithBreak (c :: cs) = false := by
  rw [Bool.eq_false_iff]
  intro hstart
  obtain ⟨br, tail, hbr, heq⟩ := startsWithBreak_iff.1 hstart
  rcases hbr with rfl | rfl <;> obtain ⟨rfl, -⟩ := List.cons.inj heq <;> revert hc <;> decide

/-! ## What a word ends at -/

theorem isWordChar_of_mem_spanWord {cs : List Char} {d : Char} (h : d ∈ (spanWord cs).1) :
    isWordChar d = true := by
  induction cs with
  | nil => simp [spanWord] at h
  | cons c cs ih =>
    unfold spanWord at h
    split at h
    · rename_i hc
      rcases List.mem_cons.1 h with rfl | hd
      · exact (Bool.and_eq_true_iff.1 hc).1
      · exact ih hd
    · simp at h

/-- What follows a word does not go on with it. -/
theorem spanWord_rest (cs : List Char) : (spanWord (spanWord cs).2).1 = [] := by
  induction cs with
  | nil => rfl
  | cons c cs ih =>
    by_cases hc : (isWordChar c && !(c == '\\' && startsWithBreak cs)) = true
    · rw [spanWord, if_pos hc]
      exact ih
    · rw [spanWord, if_neg hc, spanWord, if_neg hc]

/-- A backslash at the end of a word is not followed by a line break. -/
theorem startsWithBreak_rest_spanWord {cs : List Char}
    (h : (spanWord cs).1.getLast? = some '\\') : startsWithBreak (spanWord cs).2 = false := by
  induction cs with
  | nil => rfl
  | cons c cs ih =>
    unfold spanWord at h ⊢
    split at h
    · rename_i hc
      rw [if_pos hc]
      cases hword : (spanWord cs).1 with
      | nil =>
        -- the word is a single backslash, and `cs` is all that follows it
        have hrest : (spanWord cs).2 = cs := by simpa [hword] using spanWord_append cs
        have hlast : c = '\\' := by simpa [hword] using h
        simpa [hlast, hrest, isWordChar, isSeparator] using hc
      | cons d more =>
        refine ih ?_
        simpa [hword, List.getLast?_cons_cons] using h
    · simp at h

/-- A word goes on up to a text that does not go on with it. -/
theorem spanWord_append_of_stops {word rest : List Char} (hword : ∀ d ∈ word, isWordChar d = true)
    (hlast : word.getLast? = some '\\' → startsWithBreak rest = false)
    (hrest : (spanWord rest).1 = []) : spanWord (word ++ rest) = (word, rest) := by
  induction word with
  | nil =>
    have hall : (spanWord rest).2 = rest := by simpa [hrest] using spanWord_append rest
    exact Prod.ext hrest hall
  | cons c word ih =>
    have hc : isWordChar c = true := hword c (by simp)
    -- a letter before the last one is followed by a letter of the word, which starts no line break
    have hbreak : (c == '\\' && startsWithBreak (word ++ rest)) = false := by
      cases word with
      | nil =>
        by_cases hback : c = '\\'
        · simp [hlast (by simp [hback])]
        · simp [hback]
      | cons d more =>
        have hd : isWordChar d = true := hword d (by simp)
        rw [List.cons_append, startsWithBreak_of_isWordChar hd, Bool.and_false]
    have hmore := ih (fun d hd => hword d (List.mem_cons_of_mem _ hd)) (by
      intro h
      refine hlast ?_
      cases word with
      | nil => simp at h
      | cons d more => simpa [List.getLast?_cons_cons] using h)
    rw [List.cons_append, spanWord, hmore]
    simp [hc, hbreak]

/-- A text with which no word goes on starts with something else, or with a joined line. -/
theorem spanWord_fst_cons {c : Char} {cs : List Char} :
    (spanWord (c :: cs)).1 = [] ↔
      isWordChar c = false ∨ (c = '\\' ∧ startsWithBreak cs = true) := by
  unfold spanWord
  grind

/-! ## Quoted literals -/

theorem spanQuoted?_cons {c : Char} (hquote : c ≠ '"') (hback : c ≠ '\\') (cs : List Char) :
    spanQuoted? (c :: cs) = (spanQuoted? cs).map fun (body, rest) => (c :: body, rest) := by
  rw [spanQuoted?]
  all_goals simp_all

/-- What is read by itself in a literal is no backslash: an escape is read as one. -/
theorem ne_backslash {c : Char} {cs : List Char} (hlast : c = '\\' → cs = [] → False)
    (hmore : ∀ d ds, c = '\\' → cs = d :: ds → False) : c ≠ '\\' := by
  rintro rfl
  cases cs with
  | nil => exact hlast rfl rfl
  | cons d ds => exact hmore d ds rfl rfl

/-- A literal is read whatever follows it. -/
theorem spanQuoted?_append_rest {body : List Char} (rest : List Char)
    (h : spanQuoted? body = some (body, [])) : spanQuoted? (body ++ rest) = some (body, rest) := by
  -- the text after the literal has to be general: it grows along with what is read
  suffices ∀ cs out tail, spanQuoted? cs = some (out, tail) →
      spanQuoted? (cs ++ rest) = some (out, tail ++ rest) by simpa using this body body [] h
  intro cs
  fun_induction spanQuoted? cs with
  | case1 => simp
  | case2 cs => rintro out tail ⟨⟩; rfl
  | case3 => simp
  | case4 => simp
  | case5 c cs hc ih =>
    intro out tail h
    obtain ⟨⟨b, r⟩, hb, he⟩ := Option.map_eq_some_iff.1 h
    obtain ⟨rfl, rfl⟩ := Prod.mk.inj he
    simp [spanQuoted?, hc, ih _ _ hb]
  | case6 c cs hquote hback hback' ih =>
    intro out tail h
    obtain ⟨⟨b, r⟩, hb, he⟩ := Option.map_eq_some_iff.1 h
    obtain ⟨rfl, rfl⟩ := Prod.mk.inj he
    have hc := ne_backslash hback hback'
    rw [List.cons_append, spanQuoted?_cons hquote hc, ih _ _ hb]
    rfl

/-- What was read as a literal is one by itself. -/
theorem spanQuoted?_self {cs body rest : List Char} (h : spanQuoted? cs = some (body, rest)) :
    spanQuoted? body = some (body, []) := by
  fun_induction spanQuoted? cs generalizing body with
  | case1 => simp at h
  | case2 cs => obtain ⟨rfl, rfl⟩ := Prod.mk.inj (Option.some.inj h); rfl
  | case3 => simp at h
  | case4 => simp at h
  | case5 c cs hc ih =>
    obtain ⟨⟨b, r⟩, hb, he⟩ := Option.map_eq_some_iff.1 h
    obtain ⟨rfl, rfl⟩ := Prod.mk.inj he
    simp [spanQuoted?, hc, ih hb]
  | case6 c cs hquote hback hback' ih =>
    obtain ⟨⟨b, r⟩, hb, he⟩ := Option.map_eq_some_iff.1 h
    obtain ⟨rfl, rfl⟩ := Prod.mk.inj he
    have hc := ne_backslash hback hback'
    rw [spanQuoted?_cons hquote hc, ih hb]
    rfl

/-! ## Reading one chunk -/

/-- A run of characters ends at one that does not belong to it. -/
theorem eq_false_of_mem_head?_dropWhile {p : Char → Bool} {cs : List Char} {d : Char}
    (h : d ∈ (cs.dropWhile p).head?) : p d = false := by
  have hhead := List.head?_dropWhile_not p cs
  rw [Option.mem_def.1 h] at hhead
  exact hhead

/-- A run ends before what does not go on with it. -/
theorem takeWhile_append_of_stops {α : Type} {p : α → Bool} {run rest : List α}
    (hrun : ∀ d ∈ run, p d = true) (hrest : ∀ d ∈ rest.head?, p d = false) :
    (run ++ rest).takeWhile p = run := by
  rw [List.takeWhile_append_of_pos hrun]
  cases rest with
  | nil => simp
  | cons d rest => simp [hrest d (by simp)]

theorem dropWhile_append_of_stops {α : Type} {p : α → Bool} {run rest : List α}
    (hrun : ∀ d ∈ run, p d = true) (hrest : ∀ d ∈ rest.head?, p d = false) :
    (run ++ rest).dropWhile p = rest := by
  rw [List.dropWhile_append_of_pos hrun]
  cases rest with
  | nil => simp
  | cons d rest => simp [hrest d (by simp)]

/-- A piece without what follows it. -/
def Piece.chunk (p : Piece) : Chunk := ⟨p.token, p.text⟩

namespace Piece

theorem chunk_of_readCloseTag? {c : Char} {cs : List Char} {p : Piece} (hc : isNameStart c = true)
    (h : readCloseTag? (c :: cs) = some p) : p.chunk.IsLexical ∧ p.chunk.Stops p.rest := by
  unfold readCloseTag? at h
  simp only at h
  split at h
  · obtain rfl := Option.some.inj h
    refine ⟨?_, trivial⟩
    have hname : ∀ d ∈ cs.takeWhile isNameChar, isNameChar d = true :=
      fun d hd => List.mem_takeWhile_imp hd
    have hgap : ∀ d ∈ ((c :: cs).dropWhile isNameChar).takeWhile fun d => d == ' ' || d == '\t',
        d = ' ' ∨ d = '\t' := by
      intro d hd
      simpa using List.mem_takeWhile_imp hd
    have hform := Chunk.IsLexical.closeTag hc hname hgap
    simpa [Chunk.closeTag, chunk, List.takeWhile_cons, isNameChar_of_isNameStart hc] using hform
  · simp at h

theorem chunk_of_readAngle? {cs : List Char} {p : Piece} (h : readAngle? cs = some p) :
    p.chunk.IsLexical ∧ p.chunk.Stops p.rest := by
  unfold readAngle? at h
  split at h
  · split at h
    · exact chunk_of_readCloseTag? ‹_› h
    · rename_i hc
      obtain rfl := Option.some.inj h
      exact ⟨.less, by simpa [chunk, Chunk.Stops, Chunk.startsTag] using hc⟩
  · rename_i c rest hslash
    split at h
    · rename_i hc
      obtain rfl := Option.some.inj h
      have hname : ∀ d ∈ rest.takeWhile isNameChar, isNameChar d = true :=
        fun d hd => List.mem_takeWhile_imp hd
      have hform := Chunk.IsLexical.openTag hc hname
      refine ⟨by simpa [Chunk.openTag, chunk, readOpenTag, List.takeWhile_cons,
        isNameChar_of_isNameStart hc] using hform, ?_⟩
      exact fun d hd => eq_false_of_mem_head?_dropWhile hd
    · -- no name comes next, so the `<` stands alone and makes no tag of the rest
      rename_i hc
      obtain rfl := Option.some.inj h
      refine ⟨.less, ?_⟩
      change Chunk.startsTag (c :: rest) = false
      unfold Chunk.startsTag
      split
      · rename_i heq
        obtain ⟨rfl, rfl⟩ := List.cons.inj heq
        exact absurd rfl (hslash _ _ rfl)
      · rename_i heq
        obtain ⟨rfl, rfl⟩ := List.cons.inj heq
        simpa using hc
      · rfl
  · obtain rfl := Option.some.inj h
    exact ⟨.less, rfl⟩

/-- A piece has one of the lexical forms, and ends before what follows it. -/
theorem chunk_of_read? {c : Char} {cs : List Char} {p : Piece} (h : read? c cs = some p) :
    p.chunk.IsLexical ∧ p.chunk.Stops p.rest := by
  unfold read? at h
  split at h
  · obtain rfl := Option.some.inj h
    exact ⟨.blank ‹_›, trivial⟩
  · rename_i hsep
    split at h
    · obtain rfl := Option.some.inj h
      exact ⟨.newline (.inl rfl), trivial⟩
    · split at h
      · obtain rfl := Option.some.inj h
        exact ⟨.newline (.inr rfl), trivial⟩
      · simp at h
    · obtain rfl := Option.some.inj h
      refine ⟨?_, ?_⟩
      · have hbody : ∀ d ∈ cs.takeWhile fun d => !(d == '\r' || d == '\n'),
            d ≠ '\r' ∧ d ≠ '\n' := by
          intro d hd
          simpa using List.mem_takeWhile_imp hd
        simpa [Chunk.comment, chunk] using Chunk.IsLexical.comment hbody
      · intro d hd
        have hd' := eq_false_of_mem_head?_dropWhile hd
        rwa [Bool.not_eq_false', Bool.or_eq_true, beq_iff_eq, beq_iff_eq] at hd'
    · obtain ⟨⟨b, r⟩, hb, rfl⟩ := Option.map_eq_some_iff.1 h
      refine ⟨?_, trivial⟩
      simpa [Chunk.quoted, chunk] using Chunk.IsLexical.quoted (spanQuoted?_self hb)
    · obtain rfl := Option.some.inj h
      exact ⟨.tagEnd, trivial⟩
    · exact chunk_of_readAngle? h
    · rename_i hlf hcr hhash hquote hgt hlt
      split at h
      · obtain rfl := Option.some.inj h
        exact ⟨.join (.inl rfl), trivial⟩
      · obtain rfl := Option.some.inj h
        exact ⟨.join (.inr rfl), trivial⟩
      · rename_i hjoin hjoin'
        obtain rfl := Option.some.inj h
        have hc : isWordChar c = true := by
          simp only [isWordChar]
          simp_all
        refine ⟨?_, spanWord_rest cs, ?_⟩
        · simpa [Chunk.word, chunk] using
            Chunk.IsLexical.word hc hhash fun d hd => isWordChar_of_mem_spanWord hd
        · intro hlast
          change (c :: (spanWord cs).1).getLast? = some '\\' at hlast
          cases hword : (spanWord cs).1 with
          | nil =>
            -- a single backslash: the text after it is `cs`, which starts with no line break
            have hrest : (spanWord cs).2 = cs := by simpa [hword] using spanWord_append cs
            have hback : c = '\\' := by simpa [hword] using hlast
            rw [hrest, Bool.eq_false_iff]
            intro hbreak
            obtain ⟨br, tail, hbr, rfl⟩ := startsWithBreak_iff.1 hbreak
            rcases hbr with rfl | rfl
            · exact hjoin tail hback rfl
            · exact hjoin' tail hback rfl
          | cons d more =>
            refine startsWithBreak_rest_spanWord ?_
            simpa [hword, List.getLast?_cons_cons] using hlast

theorem readAngle?_of_stops {rest : List Char} (h : Chunk.startsTag rest = false) :
    readAngle? rest = some ⟨some .less, ['<'], rest⟩ := by
  unfold readAngle?
  unfold Chunk.startsTag at h
  split <;> simp_all

theorem readAngle?_openTag {c : Char} {name rest : List Char} (hc : isNameStart c = true)
    (hname : ∀ d ∈ name, isNameChar d = true) (hrest : ∀ d ∈ rest.head?, isNameChar d = false) :
    readAngle? (c :: (name ++ rest)) =
      some ⟨some (.openTag (String.ofList (c :: name))), '<' :: c :: name, rest⟩ := by
  have hall : ∀ d ∈ c :: name, isNameChar d = true := by
    simpa using ⟨isNameChar_of_isNameStart hc, hname⟩
  have htake := takeWhile_append_of_stops hall hrest
  have hdrop := dropWhile_append_of_stops hall hrest
  rw [List.cons_append] at htake hdrop
  unfold readAngle?
  split
  · rename_i heq
    obtain ⟨rfl, -⟩ := List.cons.inj heq
    exact absurd hc (by decide)
  · rename_i heq
    obtain ⟨rfl, rfl⟩ := List.cons.inj heq
    rw [if_pos hc, readOpenTag, htake, hdrop]
  · rename_i heq
    exact absurd heq (by simp)

theorem readAngle?_closeTag {c : Char} {name gap : List Char} (hc : isNameStart c = true)
    (hname : ∀ d ∈ name, isNameChar d = true) (hgap : ∀ d ∈ gap, d = ' ' ∨ d = '\t')
    (rest : List Char) :
    readAngle? ('/' :: c :: (name ++ (gap ++ '>' :: rest))) =
      some ⟨some (.closeTag (String.ofList (c :: name))),
        '<' :: '/' :: (c :: name ++ (gap ++ ['>'])), rest⟩ := by
  have hall : ∀ d ∈ c :: name, isNameChar d = true := by
    simpa using ⟨isNameChar_of_isNameStart hc, hname⟩
  -- the name ends at the first blank, or at the `>` if there are none
  have hstop : ∀ d ∈ (gap ++ '>' :: rest).head?, isNameChar d = false := by
    intro d hd
    cases gap with
    | nil => obtain rfl : '>' = d := by simpa using hd
             decide
    | cons e gap =>
      obtain rfl : e = d := by simpa using hd
      rcases hgap e (by simp) with rfl | rfl <;> decide
  have htake := takeWhile_append_of_stops hall hstop
  have hdrop := dropWhile_append_of_stops hall hstop
  have hgap' : ∀ d ∈ gap, (d == ' ' || d == '\t') = true := by simpa using hgap
  have hgt : ∀ d ∈ ('>' :: rest).head?, (d == ' ' || d == '\t') = false := by
    intro d hd
    obtain rfl : '>' = d := by simpa using hd
    decide
  have htake' := takeWhile_append_of_stops hgap' hgt
  have hdrop' := dropWhile_append_of_stops hgap' hgt
  rw [List.cons_append] at htake hdrop
  simp only [readAngle?, if_pos hc, readCloseTag?, htake, hdrop, htake', hdrop']

theorem read?_word {c : Char} {more rest : List Char} (hc : isWordChar c = true) (hhash : c ≠ '#')
    (hmore : ∀ d ∈ more, isWordChar d = true) (hrest : (spanWord rest).1 = [])
    (hlast : (c :: more).getLast? = some '\\' → startsWithBreak rest = false) :
    read? c (more ++ rest) =
      some ⟨some (.word (String.ofList (c :: more))), c :: more, rest⟩ := by
  have hspan : spanWord (more ++ rest) = (more, rest) := by
    refine spanWord_append_of_stops hmore (fun h => hlast ?_) hrest
    cases more with
    | nil => simp at h
    | cons d more => simpa [List.getLast?_cons_cons] using h
  -- a word that starts with a backslash must not be taken for a joined line
  have hjoin : c = '\\' → startsWithBreak (more ++ rest) = false := by
    rintro rfl
    cases more with
    | nil => exact hlast rfl
    | cons d more => exact startsWithBreak_of_isWordChar (hmore d (by simp)) _
  unfold read?
  split
  · rename_i hsep
    simp [isWordChar, hsep] at hc
  · split
    · exact absurd hc (by decide)
    · exact absurd hc (by decide)
    · exact absurd rfl hhash
    · exact absurd hc (by decide)
    · exact absurd hc (by decide)
    · exact absurd hc (by decide)
    · split
      · rw [‹more ++ rest = _›] at hjoin
        exact absurd (hjoin rfl) (by simp [startsWithBreak])
      · rw [‹more ++ rest = _›] at hjoin
        exact absurd (hjoin rfl) (by simp [startsWithBreak])
      · rw [hspan]

/-- A text of one of the lexical forms is read as a piece before everything it stops at. -/
theorem read?_of_isLexical {k : Chunk} {rest : List Char} (hk : k.IsLexical)
    (hstop : k.Stops rest) :
    ∃ c more, k.text = c :: more ∧ read? c (more ++ rest) = some ⟨k.token, k.text, rest⟩ := by
  cases hk with
  | @blank c hc => exact ⟨c, [], rfl, by simp [read?, hc, Chunk.blank]⟩
  | join hbr =>
    rcases hbr with rfl | rfl
    · exact ⟨'\\', ['\n'], rfl, rfl⟩
    · exact ⟨'\\', ['\r', '\n'], rfl, rfl⟩
  | newline hbr =>
    rcases hbr with rfl | rfl
    · exact ⟨'\n', [], rfl, rfl⟩
    · exact ⟨'\r', ['\n'], rfl, rfl⟩
  | @comment body hbody =>
    -- the body goes up to the first line break, which `rest` starts with if it is not empty
    have hbody' : ∀ d ∈ body, (!(d == '\r' || d == '\n')) = true := by
      intro d hd
      simpa using hbody d hd
    have hrest : ∀ d ∈ rest.head?, (!(d == '\r' || d == '\n')) = false := by
      intro d hd
      rcases hstop d hd with rfl | rfl <;> rfl
    have htake := takeWhile_append_of_stops hbody' hrest
    have hdrop := dropWhile_append_of_stops hbody' hrest
    refine ⟨'#', body, by simp [Chunk.comment], ?_⟩
    change some (Piece.mk (some (.comment (String.ofList ('#' :: List.takeWhile _ _)))) _ _) = _
    rw [htake, hdrop, Chunk.comment, String.toList_ofList]
  | @quoted body hbody =>
    refine ⟨'"', body, by simp [Chunk.quoted], ?_⟩
    change (spanQuoted? (body ++ rest)).map _ = _
    rw [spanQuoted?_append_rest rest hbody, Chunk.quoted, String.toList_ofList]
    rfl
  | @word c more hc hhash hmore =>
    refine ⟨c, more, by simp [Chunk.word], ?_⟩
    rw [read?_word hc hhash hmore hstop.1 (by simpa [Chunk.word] using hstop.2), Chunk.word,
      String.toList_ofList]
  | tagEnd => exact ⟨'>', [], rfl, rfl⟩
  | less => exact ⟨'<', [], rfl, readAngle?_of_stops hstop⟩
  | @openTag c name hc hname =>
    refine ⟨'<', c :: name, by simp [Chunk.openTag], ?_⟩
    change readAngle? (c :: (name ++ rest)) = _
    rw [readAngle?_openTag hc hname hstop, Chunk.openTag, String.toList_ofList]
  | @closeTag c name gap hc hname hgap =>
    refine ⟨'<', '/' :: c :: (name ++ (gap ++ ['>'])), by simp [Chunk.closeTag], ?_⟩
    have hread := readAngle?_closeTag hc hname hgap rest
    change readAngle? ('/' :: c :: ((name ++ (gap ++ ['>'])) ++ rest)) = _
    simpa using hread

end Piece

/-! ## Seams -/

namespace Chunk

theorem IsLexical.text_ne_nil {k : Chunk} (h : k.IsLexical) : k.text ≠ [] := by
  cases h with
  | newline hbr => rcases hbr with rfl | rfl <;> simp
  | _ => simp

theorem IsLexical.eq_comment {k : Chunk} {text : String} (h : k.IsLexical)
    (htoken : k.token = some (.comment text)) : k = .comment text := by
  cases h with
  | comment _ => simp_all [Chunk.comment]
  | _ => simp at htoken

theorem IsLexical.eq_word {k : Chunk} {text : String} (h : k.IsLexical)
    (htoken : k.token = some (.word text)) : k = .word text := by
  cases h with
  | word _ _ _ => simp_all [Chunk.word]
  | _ => simp at htoken

/-- Only a line break starts with `CR` or `LF`. -/
theorem IsLexical.head_isBreak_iff {y : Chunk} (hy : y.IsLexical) (rest : List Char) :
    (∀ c ∈ (y.text ++ rest).head?, c = '\r' ∨ c = '\n') ↔ y.token = some .newline := by
  cases hy with
  | blank hc =>
    simp only [isSeparator, Bool.or_eq_true, beq_iff_eq] at hc
    rcases hc with (rfl | rfl) | rfl <;> simp
  | newline hbr => rcases hbr with rfl | rfl <;> simp
  | @word c more hc hhash hmore =>
    have hbreak : c ≠ '\r' ∧ c ≠ '\n' := by
      constructor <;> rintro rfl <;> revert hc <;> decide
    simp [hbreak]
  | _ => simp

theorem IsLexical.startsWithBreak_iff {y : Chunk} (hy : y.IsLexical) (rest : List Char) :
    startsWithBreak (y.text ++ rest) = true ↔ y.token = some .newline := by
  constructor
  · intro h
    obtain ⟨br, tail, hbr, heq⟩ := HttpdConf.startsWithBreak_iff.1 h
    refine (hy.head_isBreak_iff rest).1 fun c hc => ?_
    rw [heq] at hc
    rcases hbr with rfl | rfl
    · exact .inr (by simpa using hc.symm)
    · exact .inl (by simpa using hc.symm)
  · intro h
    cases hy with
    | newline hbr => exact startsWithBreak_append hbr rest
    | _ => simp at h

/-- A word goes on only with another word or what looks like a comment. -/
theorem IsLexical.spanWord_eq_nil_iff {y : Chunk} {rest : List Char} (hy : y.IsLexical)
    (hstop : y.Stops rest) : (spanWord (y.text ++ rest)).1 = [] ↔
      ∀ text, y.token ≠ some (.word text) ∧ y.token ≠ some (.comment text) := by
  cases hy with
  | blank hc => simp [spanWord_fst_cons, isWordChar, hc]
  | join hbr => simp [spanWord_fst_cons, startsWithBreak_append hbr]
  | newline hbr => rcases hbr with rfl | rfl <;> simp [spanWord_fst_cons] <;> decide
  | comment _ => simp [spanWord_fst_cons, isWordChar, isSeparator]
  | @word c more hc hhash hmore =>
    -- the first letter is one of a word, unless it is a backslash that joins two lines
    have hback : ¬ (c = '\\' ∧ startsWithBreak (more ++ rest) = true) := by
      rintro ⟨rfl, hbreak⟩
      cases more with
      | nil => simp [hstop.2 (by simp)] at hbreak
      | cons d more =>
        have hd : isWordChar d = true := hmore d (by simp)
        simp [startsWithBreak_of_isWordChar hd] at hbreak
    simp [spanWord_fst_cons, hc, hback]
  | _ => simp [spanWord_fst_cons, isWordChar]

theorem startsTag_cons {c : Char} (hc : c ≠ '/') (cs : List Char) :
    startsTag (c :: cs) = isNameStart c := by
  rw [startsTag]
  simp [hc]

/-- A `<` becomes a tag by the chunk after it alone. -/
theorem IsLexical.startsTag_append {y : Chunk} {rest : List Char} (hy : y.IsLexical)
    (hstop : y.Stops rest) : startsTag (y.text ++ rest) = startsTag y.text := by
  cases hy with
  | @word c more hc hhash hmore =>
    -- only a word can start with a slash, and only a lone one leaves the next letter to `rest`
    cases more with
    | nil =>
      cases rest with
      | nil => simp
      | cons d rest =>
        by_cases hslash : c = '/'
        · have hd := spanWord_fst_cons.1 hstop.1
          have hstart : isNameStart d = false := by
            rw [Bool.eq_false_iff]
            intro hd'
            have hname := isNameChar_of_isNameStart hd'
            rcases hd with hd | ⟨rfl, -⟩
            · simp [isWordChar_of_isNameChar hname] at hd
            · exact isNameChar_ne_backslash hname rfl
          simp [hslash, startsTag, hstart]
          decide
        · simp [startsTag_cons hslash]
    | cons d more =>
      by_cases hslash : c = '/'
      · simp [hslash, startsTag]
      · simp [startsTag_cons hslash]
  | blank hc =>
    simp only [isSeparator, Bool.or_eq_true, beq_iff_eq] at hc
    rcases hc with (rfl | rfl) | rfl <;> simp [startsTag]
  | newline hbr => rcases hbr with rfl | rfl <;> simp [startsTag]
  | _ => simp [startsTag]

/-- At a seam, a chunk ends before the text of the next one when it ends before that one. -/
theorem stops_append_iff {x y : Chunk} {rest : List Char} (hy : y.IsLexical)
    (hstop : y.Stops rest) : x.Stops (y.text ++ rest) ↔ x.meets y = true := by
  have hhead : (y.text ++ rest).head? = y.text.head? := by
    cases htext : y.text with
    | nil => exact absurd htext hy.text_ne_nil
    | cons c more => rfl
  unfold Stops meets
  split
  · rw [hy.head_isBreak_iff, beq_iff_eq]
  · rw [hy.spanWord_eq_nil_iff hstop, ← Bool.not_eq_true, hy.startsWithBreak_iff]
    cases hy <;> simp
  · rw [hhead]
    cases y.text.head? <;> simp
  · rw [hy.startsTag_append hstop]
    simp
  · simp

theorem stops_nil (x : Chunk) : x.Stops [] := by
  unfold Stops
  split <;> simp [spanWord, startsWithBreak, startsTag]

end Chunk

/-! ## Texts of chunks -/

/-- The text that chunks make up. -/
def textOf (ks : List Chunk) : List Char := ks.flatMap Chunk.text

@[simp]
theorem textOf_nil : textOf [] = [] := rfl

@[simp]
theorem textOf_cons (k : Chunk) (ks : List Chunk) : textOf (k :: ks) = k.text ++ textOf ks := rfl

@[simp]
theorem textOf_append (as bs : List Chunk) : textOf (as ++ bs) = textOf as ++ textOf bs := by
  simp [textOf]

/-- The number of bytes of some chunks. -/
def extent (ks : List Chunk) : Nat := Text.byteLength (textOf ks)

@[simp]
theorem extent_nil : extent [] = 0 := rfl

@[simp]
theorem extent_cons (k : Chunk) (ks : List Chunk) :
    extent (k :: ks) = Text.byteLength k.text + extent ks := by
  simp [extent]

@[simp]
theorem extent_append (as bs : List Chunk) : extent (as ++ bs) = extent as + extent bs := by
  simp [extent]

theorem extent_pos {ks : List Chunk} (hlex : ∀ k ∈ ks, k.IsLexical) (hks : ks ≠ []) :
    0 < extent ks := by
  cases ks with
  | nil => exact absurd rfl hks
  | cons k ks =>
    cases htext : k.text with
    | nil => exact absurd htext (hlex k (by simp)).text_ne_nil
    | cons c cs =>
      have hc := c.utf8Size_pos
      rw [extent_cons, htext, Text.byteLength_cons]
      omega

/-- The lexeme of a chunk at an offset, if it is a token. -/
def Chunk.lexeme? (offset : Nat) (k : Chunk) : Option Lexeme :=
  k.token.map fun token => ⟨token, ⟨offset, offset + Text.byteLength k.text⟩⟩

/-- The lexemes of chunks whose text starts at an offset. -/
def lexemesAt (offset : Nat) : List Chunk → List Lexeme
  | [] => []
  | k :: ks => (k.lexeme? offset).toList ++ lexemesAt (offset + Text.byteLength k.text) ks

theorem lexemesAt_append (offset : Nat) (as bs : List Chunk) :
    lexemesAt offset (as ++ bs) = lexemesAt offset as ++ lexemesAt (offset + extent as) bs := by
  induction as generalizing offset with
  | nil => simp [lexemesAt]
  | cons a as ih => simp [lexemesAt, ih, Nat.add_assoc]

theorem getLast?_lexemesAt_concat {offset : Nat} {ks : List Chunk} {k : Chunk} {t : Token}
    (hk : k.token = some t) :
    (lexemesAt offset (ks ++ [k])).getLast?.map Lexeme.token = some t := by
  rw [lexemesAt_append]
  simp [lexemesAt, Chunk.lexeme?, hk]

/-- A lexeme is that of a chunk, which stands where the chunks before it end. -/
theorem exists_of_mem_lexemesAt {offset : Nat} {ks : List Chunk} {x : Lexeme}
    (h : x ∈ lexemesAt offset ks) :
    ∃ as k bs, ks = as ++ k :: bs ∧ k.token = some x.token ∧
      x.span = ⟨offset + extent as, offset + extent as + Text.byteLength k.text⟩ := by
  induction ks generalizing offset with
  | nil => simp [lexemesAt] at h
  | cons k ks ih =>
    rw [lexemesAt, List.mem_append, Option.mem_toList] at h
    rcases h with h | h
    · obtain ⟨token, htoken, rfl⟩ := Option.map_eq_some_iff.1 h
      exact ⟨[], k, ks, rfl, htoken, by simp⟩
    · obtain ⟨as, k', bs, rfl, htoken, hspan⟩ := ih h
      exact ⟨k :: as, k', bs, rfl, htoken, by simp [hspan, Nat.add_assoc]⟩

/-- Chunks that the scanner makes of their own text. -/
structure Written (ks : List Chunk) : Prop where
  isLexical : ∀ k ∈ ks, k.IsLexical
  isChain : ks.IsChain fun x y => x.meets y = true

namespace Written

theorem nil : Written [] := ⟨by simp, .nil⟩

theorem tail {k : Chunk} {ks : List Chunk} (h : Written (k :: ks)) : Written ks :=
  ⟨fun x hx => h.isLexical x (List.mem_cons_of_mem _ hx), h.isChain.tail⟩

theorem cons_iff {k : Chunk} {ks : List Chunk} : Written (k :: ks) ↔
    k.IsLexical ∧ Written ks ∧ ∀ y ∈ ks.head?, k.meets y = true := by
  constructor
  · rintro ⟨hlex, hchain⟩
    obtain ⟨hseam, hks⟩ := List.isChain_cons.1 hchain
    exact ⟨hlex k (by simp), ⟨fun x hx => hlex x (by simp [hx]), hks⟩, hseam⟩
  · rintro ⟨hk, ⟨hlex, hchain⟩, hseam⟩
    exact ⟨by simpa using ⟨hk, hlex⟩, List.isChain_cons.2 ⟨hseam, hchain⟩⟩

/-- Written chunks are put together at a seam. -/
theorem append_iff {as bs : List Chunk} : Written (as ++ bs) ↔
    Written as ∧ Written bs ∧ ∀ x ∈ as.getLast?, ∀ y ∈ bs.head?, x.meets y = true := by
  constructor
  · rintro ⟨hlex, hchain⟩
    obtain ⟨has, hbs, hseam⟩ := List.isChain_append.1 hchain
    exact ⟨⟨fun k hk => hlex k (by simp [hk]), has⟩, ⟨fun k hk => hlex k (by simp [hk]), hbs⟩,
      hseam⟩
  · rintro ⟨⟨hlexa, has⟩, ⟨hlexb, hbs⟩, hseam⟩
    refine ⟨fun k hk => ?_, has.append hbs hseam⟩
    exact (List.mem_append.1 hk).elim (hlexa k) (hlexb k)

/-- A written chunk ends before the text of those that follow and what comes after them. -/
theorem stops_append {k : Chunk} {ks : List Chunk} {rest : List Char} (h : Written (k :: ks))
    (hrest : ∀ x ∈ (k :: ks).getLast?, x.Stops rest) : k.Stops (textOf ks ++ rest) := by
  induction ks generalizing k with
  | nil => exact hrest k rfl
  | cons y ks ih =>
    have hmeets : k.meets y = true := h.isChain.rel
    rw [textOf_cons, List.append_assoc, Chunk.stops_append_iff (h.isLexical y (by simp))]
    · exact hmeets
    · exact ih h.tail (by simpa [List.getLast?_cons_cons] using hrest)

theorem stops {k : Chunk} {ks : List Chunk} (h : Written (k :: ks)) : k.Stops (textOf ks) := by
  simpa using h.stops_append fun x _ => x.stops_nil

/-- A piece that was read before written chunks goes on with them. -/
theorem cons_of_read? {c : Char} {cs rest : List Char} {p : Piece} {ks : List Chunk}
    (hread : Piece.read? c cs = some p) (hks : Written ks) (htext : p.rest = textOf ks ++ rest)
    (hrest : ∀ x ∈ ks.getLast?, x.Stops rest) :
    Written (p.chunk :: ks) ∧ ∀ x ∈ (p.chunk :: ks).getLast?, x.Stops rest := by
  obtain ⟨hform, hstop⟩ := Piece.chunk_of_read? hread
  rw [htext] at hstop
  cases ks with
  | nil =>
    refine ⟨cons_iff.2 ⟨hform, hks, by simp⟩, fun x hx => ?_⟩
    obtain rfl : p.chunk = x := by simpa using hx
    exact hstop
  | cons y ks =>
    -- the piece stops at the rest, hence at the next chunk
    rw [textOf_cons, List.append_assoc] at hstop
    have hmeets := (Chunk.stops_append_iff (hks.isLexical _ (by simp)) (hks.stops_append hrest)).1
      hstop
    exact ⟨cons_iff.2 ⟨hform, hks, by simpa using hmeets⟩, by
      simpa [List.getLast?_cons_cons] using hrest⟩

end Written

/-- Written chunks are scanned as they are before all that the last one stops at. -/
theorem scanFrom_textOf_append {offset : Nat} {rest : List Char} {ks : List Chunk}
    (hks : Written ks) (hrest : ∀ x ∈ ks.getLast?, x.Stops rest) :
    scanFrom offset (textOf ks ++ rest) =
      (scanFrom (offset + extent ks) rest).map (lexemesAt offset ks ++ ·) := by
  -- each chunk is what the scanner reads first, as it stops at what comes after it
  induction ks generalizing offset with
  | nil => cases h : scanFrom offset rest <;> simp [lexemesAt, h, Except.map]
  | cons k ks ih =>
    have hmore : ∀ x ∈ ks.getLast?, x.Stops rest := by
      intro x hx
      exact hrest x (by simp [List.getLast?_cons, Option.mem_def.1 hx])
    obtain ⟨c, more, htext, hread⟩ :=
      Piece.read?_of_isLexical (hks.isLexical k (by simp)) (hks.stops_append hrest)
    rw [textOf_cons, htext, List.append_assoc, List.cons_append, scanFrom]
    split
    · rename_i hnone
      simp [hread] at hnone
    · rename_i p hsome
      obtain rfl := Option.some.inj (hread.symm.trans hsome)
      simp only [ih hks.tail hmore]
      rw [extent_cons, ← Nat.add_assoc]
      cases scanFrom (offset + Text.byteLength k.text + extent ks) rest with
      | error e => rfl
      | ok xs =>
        simp only [Except.map, lexemesAt, List.append_assoc]
        rfl

/-- Scanning succeeds exactly on the texts of written chunks, and gives their lexemes. -/
theorem scanFrom_eq_ok_iff {offset : Nat} {cs : List Char} {xs : List Lexeme} :
    scanFrom offset cs = .ok xs ↔
      ∃ ks, Written ks ∧ textOf ks = cs ∧ lexemesAt offset ks = xs := by
  constructor
  · -- a scan cuts its text into chunks
    intro h
    fun_induction scanFrom offset cs generalizing xs with
    | case1 => exact ⟨[], .nil, rfl, Except.ok.inj h⟩
    | case2 => simp at h
    | case3 => simp at h
    | case4 offset c rest p hread hlt lexemes hscan ih =>
      obtain ⟨ks, hks, htext, hlex⟩ := ih hscan
      refine ⟨p.chunk :: ks, (hks.cons_of_read? hread (by rw [htext, List.append_nil]) fun x _ =>
        x.stops_nil).1, ?_, ?_⟩
      · rw [textOf_cons, htext]
        exact Piece.text_append_rest hread
      · rw [lexemesAt, ← Except.ok.inj h, ← hlex]
        rfl
  · rintro ⟨ks, hks, rfl, rfl⟩
    have hscan := @scanFrom_textOf_append offset [] ks hks fun x _ => x.stops_nil
    rw [List.append_nil] at hscan
    rw [hscan, scanFrom]
    simp [Except.map]

/-- Written chunks are found again in their text. -/
theorem Written.scan_eq {ks : List Chunk} (h : Written ks) :
    scan (String.ofList (textOf ks)) = .ok (lexemesAt 0 ks) :=
  scanFrom_eq_ok_iff.2 ⟨ks, h, by simp, rfl⟩

end HttpdConf
