import HttpdConf.Proofs.Lines
import HttpdConf.Proofs.Rendering

/-!
# Line endings

A file may end its lines with `LF` or with `CR LF`, and says the same either way. Chunk by chunk,
the text with the other line endings is made of the same tokens. Only line breaks, joined lines and
quoted literals contain an `LF`, and each of them may contain `CR LF` instead; and whether two
chunks touch does not depend on how long they are.

## Main definitions

* `Text.crlf`: a text with its lines ended by `CR LF`
* `Shape.mapArguments`: a shape with its arguments changed
* `BreaksInQuotes`: an argument all of whose line breaks stand in quoted literals
* `Page.crlf`: a page with its lines ended by `CR LF`

## Main results

* `Page.Legible.crlf`: the page stays legible
* `read_crlf`: a file with the other line endings is read as the same
-/

namespace HttpdConf

/-- Write every `LF` as `CR LF`. -/
def Text.crlfChars (cs : List Char) : List Char :=
  cs.flatMap fun c => if c = '\n' then ['\r', '\n'] else [c]

/-- The text with every `LF` written as `CR LF`. -/
def Text.crlf (s : String) : String := String.ofList (crlfChars s.toList)

mutual
/-- The shape with its arguments changed, and the rest as it is. -/
def Shape.mapArguments (g : String → String) : Shape → Shape
  | .comment text => .comment text
  | .directive name arguments => .directive name (arguments.map g)
  | .block name arguments children =>
    .block name (arguments.map g) (Shape.mapAllArguments g children)

def Shape.mapAllArguments (g : String → String) : List Shape → List Shape
  | [] => []
  | s :: rest => s.mapArguments g :: Shape.mapAllArguments g rest
end

mutual
/-- The arguments of all directives and blocks of a shape. -/
def Shape.arguments : Shape → List String
  | .comment _ => []
  | .directive _ arguments => arguments
  | .block _ arguments children => arguments ++ Shape.allArguments children

def Shape.allArguments : List Shape → List String
  | [] => []
  | s :: rest => s.arguments ++ Shape.allArguments rest
end

/-- The text is put together from parts, of which only quoted literals have line breaks. -/
def BreaksInQuotes (s : String) : Prop :=
  ∃ parts : List String, s = String.join parts ∧
    ∀ p ∈ parts, isQuotedLiteral p = true ∨ '\n' ∉ p.toList

/-! ## Texts -/

namespace Text

variable {a b s : String} {c : Char} {cs as bs : List Char}

@[simp]
theorem crlfChars_nil : crlfChars [] = [] := rfl

@[simp]
theorem crlfChars_append (as bs : List Char) :
    crlfChars (as ++ bs) = crlfChars as ++ crlfChars bs := List.flatMap_append

theorem crlfChars_cons (hc : c ≠ '\n') (cs : List Char) :
    crlfChars (c :: cs) = c :: crlfChars cs := by
  simp [crlfChars, hc]

@[simp]
theorem crlfChars_break (cs : List Char) :
    crlfChars ('\n' :: cs) = '\r' :: '\n' :: crlfChars cs := rfl

/-- A text of one line stays the same. -/
theorem crlfChars_eq_self (h : '\n' ∉ cs) : crlfChars cs = cs := by
  induction cs with
  | nil => rfl
  | cons c cs ih =>
    rw [List.mem_cons, not_or] at h
    rw [crlfChars_cons (Ne.symm h.1), ih h.2]

@[simp]
theorem toList_crlf (s : String) : (crlf s).toList = crlfChars s.toList := String.toList_ofList

theorem crlf_append (a b : String) : crlf (a ++ b) = crlf a ++ crlf b := by
  rw [← String.toList_inj]
  simp

theorem crlf_eq_self (h : '\n' ∉ s.toList) : crlf s = s := by
  rw [← String.toList_inj, toList_crlf, crlfChars_eq_self h]

/-- The characters of a word are those of its text. -/
theorem mem_of_mem_words {w : List Char} (hw : w ∈ words cs) (hc : c ∈ w) : c ∈ cs := by
  induction cs using words.induct generalizing w with
  | case1 => simp [words] at hw
  | case2 d hd => simp [words, hd] at hw
  | case3 d hd =>
    simp only [words, hd] at hw
    simp_all
  | case4 d e cs hd ih =>
    rw [words, if_pos hd] at hw
    exact List.mem_cons_of_mem _ (ih hw hc)
  | case5 d e cs hd he ih =>
    rw [words, if_neg hd, if_pos he] at hw
    rcases List.mem_cons.1 hw with rfl | hw
    · simp_all
    · exact List.mem_cons_of_mem _ (ih hw hc)
  | case6 d e cs hd he hwords ih =>
    rw [words, if_neg hd, if_neg he, hwords] at hw
    simp_all
  | case7 d e cs hd he w' ws hwords ih =>
    rw [words, if_neg hd, if_neg he, hwords] at hw
    rw [hwords] at ih
    rcases List.mem_cons.1 hw with rfl | hw
    · rcases List.mem_cons.1 hc with rfl | hc
      · exact List.mem_cons_self
      · exact List.mem_cons_of_mem _ (ih List.mem_cons_self hc)
    · exact List.mem_cons_of_mem _ (ih (List.mem_cons_of_mem _ hw) hc)

/-- A quoted literal stays one. -/
theorem spanQuoted?_crlfChars {body rest : List Char} (h : spanQuoted? cs = some (body, rest)) :
    spanQuoted? (crlfChars cs) = some (crlfChars body, crlfChars rest) := by
  fun_induction spanQuoted? cs generalizing body with
  | case1 => simp at h
  | case2 cs =>
    obtain ⟨rfl, rfl⟩ := Prod.mk.inj (Option.some.inj h)
    rfl
  | case3 => simp at h
  | case4 => simp at h
  | case5 c cs hc ih =>
    obtain ⟨⟨b, r⟩, hb, he⟩ := Option.map_eq_some_iff.1 h
    obtain ⟨rfl, rfl⟩ := Prod.mk.inj he
    have hc' : c ≠ '\n' := by simpa using hc
    rw [crlfChars_cons (by decide), crlfChars_cons hc', crlfChars_cons (by decide),
      crlfChars_cons hc', spanQuoted?, if_neg hc, ih hb]
    rfl
  | case6 c cs hquote hback hback' ih =>
    obtain ⟨⟨b, r⟩, hb, he⟩ := Option.map_eq_some_iff.1 h
    obtain ⟨rfl, rfl⟩ := Prod.mk.inj he
    have hc := ne_backslash hback hback'
    by_cases hbreak : c = '\n'
    · rw [hbreak, crlfChars_break, crlfChars_break, spanQuoted?_cons (by decide) (by decide),
        spanQuoted?_cons (by decide) (by decide), ih hb]
      rfl
    · rw [crlfChars_cons hbreak, crlfChars_cons hbreak, spanQuoted?_cons hquote hc, ih hb]
      rfl

end Text

/-! ## Chunks -/

/-- The token of a text with the other line endings. -/
def Token.crlf : Token → Token
  | .quoted text => .quoted (Text.crlf text)
  | t => t

/-- The words of a token have no line breaks, unless it is a quoted literal. -/
theorem Token.argumentWords?_crlf {t : Token}
    (h : ∀ text, t = .comment text ∨ t = .word text ∨ t = .openTag text → '\n' ∉ text.toList) :
    t.crlf.argumentWords? = t.argumentWords?.map (List.map Text.crlf) := by
  cases t with
  | quoted text => rfl
  | comment text =>
    have hwords : ∀ w ∈ Text.words text.toList, Text.crlf (String.ofList w) = String.ofList w := by
      intro w hw
      refine Text.crlf_eq_self fun hmem => h text (.inl rfl) ?_
      rw [String.toList_ofList] at hmem
      exact Text.mem_of_mem_words hw hmem
    simpa [Token.crlf, Token.argumentWords?, eq_comm] using hwords
  | word text => simp [Token.crlf, Token.argumentWords?, Text.crlf_eq_self (h text (by simp))]
  | openTag name =>
    have hname : '\n' ∉ ("<" ++ name).toList := by simpa using h name (by simp)
    simp [Token.crlf, Token.argumentWords?, Text.crlf_eq_self hname]
  | tagEnd => rfl
  | less => rfl
  | newline => rfl
  | closeTag name => rfl

namespace Chunk

/-- The chunk of a text with the other line endings. -/
def crlf (k : Chunk) : Chunk :=
  match k.token with
  | none | some .newline => ⟨k.token, Text.crlfChars k.text⟩
  | some (.quoted text) => .quoted (Text.crlf text)
  | _ => k

variable {k x y : Chunk}

theorem token_crlf (k : Chunk) : k.crlf.token = k.token.map Token.crlf := by
  obtain ⟨token, text⟩ := k
  cases token with
  | none => rfl
  | some t => cases t <;> rfl

/-- Only line breaks, joined lines and quoted literals have an `LF`. -/
theorem IsLexical.break_not_mem (h : k.IsLexical) (hgap : k.isGap = false)
    (hquoted : ∀ text, k.token ≠ some (.quoted text)) : '\n' ∉ k.text := by
  cases h with
  | blank _ => simp [isGap] at hgap
  | join _ => simp [isGap] at hgap
  | newline _ => simp [isGap] at hgap
  | comment hbody => simpa using fun h => (hbody _ h).2 rfl
  | quoted _ => exact absurd rfl (hquoted _)
  | word hc _ hmore =>
    simp only [word_text, String.toList_ofList, List.mem_cons, not_or]
    exact ⟨fun h => by simp [← h, isWordChar] at hc,
      fun h => absurd (hmore _ h) (by decide)⟩
  | tagEnd => decide
  | less => decide
  | openTag hc hname =>
    simp only [openTag_text, String.toList_ofList, List.mem_cons, not_or]
    exact ⟨by decide, fun h => by rw [← h] at hc; exact absurd hc (by decide),
      fun h => absurd (hname _ h) (by decide)⟩
  | closeTag hc hname hblanks =>
    simp only [closeTag_text, String.toList_ofList, List.mem_cons, List.mem_append, not_or]
    refine ⟨by decide, by decide, ⟨fun h => by rw [← h] at hc; exact absurd hc (by decide),
      fun h => absurd (hname _ h) (by decide)⟩, fun h => ?_, by decide, by simp⟩
    exact absurd (hblanks _ h) (by decide)

theorem crlf_quoted (text : String) : (Chunk.quoted text).crlf = .quoted (Text.crlf text) := rfl

/-- Other chunks stay as they are. -/
theorem crlf_eq_self (hgap : k.isGap = false)
    (hquoted : ∀ text, k.token ≠ some (.quoted text)) : k.crlf = k := by
  obtain ⟨token, text⟩ := k
  cases token with
  | none => simp [isGap] at hgap
  | some t =>
    cases t with
    | newline => simp [isGap] at hgap
    | quoted text => exact absurd rfl (hquoted text)
    | _ => rfl

theorem IsLexical.text_crlf (h : k.IsLexical) : k.crlf.text = Text.crlfChars k.text := by
  have hother : k.isGap = false → (∀ text, k.token ≠ some (.quoted text)) →
      k.crlf.text = Text.crlfChars k.text := fun hgap hquoted => by
    rw [crlf_eq_self hgap hquoted, Text.crlfChars_eq_self (h.break_not_mem hgap hquoted)]
  cases h with
  | blank _ | join _ | newline _ => rfl
  | quoted _ => rw [crlf_quoted, quoted_text, quoted_text, Text.toList_crlf]
  | comment _ | word _ _ _ | tagEnd | less | openTag _ _ | closeTag _ _ _ =>
    exact hother rfl (by simp)

theorem IsLexical.crlf (h : k.IsLexical) (hcr : '\r' ∉ k.text) : k.crlf.IsLexical := by
  cases h with
  | @blank c hc =>
    have hbreak : c ≠ '\n' := by rintro rfl; revert hc; decide
    rw [Chunk.crlf, blank_token, blank_text, Text.crlfChars_cons hbreak]
    exact .blank hc
  | join hbr =>
    rcases hbr with rfl | rfl
    · exact .join (.inr rfl)
    · simp at hcr
  | newline hbr =>
    rcases hbr with rfl | rfl
    · exact .newline (.inr rfl)
    · simp at hcr
  | @quoted body hbody =>
    have hform := IsLexical.quoted (Text.spanQuoted?_crlfChars hbody)
    rwa [← Text.crlfChars_cons (by decide), ← String.toList_ofList (l := '"' :: body)] at hform
  | comment hbody => exact .comment hbody
  | word hc hhash hmore => exact .word hc hhash hmore
  | tagEnd => exact .tagEnd
  | less => exact .less
  | openTag hc hname => exact .openTag hc hname
  | closeTag hc hname hblanks => exact .closeTag hc hname hblanks

/-- No tag starts at a line break, whichever it is. -/
theorem startsTag_crlfChars (cs : List Char) : startsTag (Text.crlfChars cs) = startsTag cs := by
  cases cs with
  | nil => rfl
  | cons c cs =>
    by_cases hslash : c = '/'
    · subst hslash
      rw [Text.crlfChars_cons (by decide)]
      cases cs with
      | nil => rfl
      | cons d cs =>
        by_cases hd : d = '\n'
        · subst hd
          rfl
        · rw [Text.crlfChars_cons hd]
          rfl
    · by_cases hc : c = '\n'
      · subst hc
        rfl
      · rw [Text.crlfChars_cons hc, startsTag_cons hslash, startsTag_cons hslash]

theorem any_head?_crlfChars (cs : List Char) :
    (Text.crlfChars cs).head?.any isNameChar = cs.head?.any isNameChar := by
  cases cs with
  | nil => rfl
  | cons c cs =>
    by_cases hc : c = '\n'
    · subst hc
      rfl
    · rw [Text.crlfChars_cons hc]
      rfl

/-- Chunks that end before the next one still do. -/
theorem meets_crlf (hx : x.IsLexical) (hy : y.IsLexical) :
    x.crlf.meets y.crlf = x.meets y := by
  cases hx with
  | blank _ | join _ | newline _ | tagEnd | closeTag _ _ _ => rfl
  | quoted _ => rw [crlf_quoted, meets, meets, quoted_token, quoted_token]
  | comment _ =>
    change (y.crlf.token == some .newline) = (y.token == some .newline)
    rw [token_crlf]
    cases y.token with
    | none => rfl
    | some t => cases t <;> rfl
  | word _ _ _ =>
    rw [crlf_eq_self rfl (by simp), meets, meets, token_crlf]
    cases y.token with
    | none => rfl
    | some t => cases t <;> rfl
  | less =>
    change (!startsTag y.crlf.text) = !startsTag y.text
    rw [hy.text_crlf, startsTag_crlfChars]
  | openTag _ _ =>
    change (!(y.crlf.text.head?.any isNameChar)) = !(y.text.head?.any isNameChar)
    rw [hy.text_crlf, any_head?_crlfChars]

theorem isGap_crlf (k : Chunk) : k.crlf.isGap = k.isGap := by
  rw [isGap, isGap, token_crlf]
  cases k.token with
  | none => rfl
  | some t => cases t <;> rfl

theorem isArgument_crlf (k : Chunk) : k.crlf.isArgument = k.isArgument := by
  rw [isArgument, isArgument, token_crlf]
  cases k.token with
  | none => rfl
  | some t => cases t <;> rfl

theorem isTagArgument_crlf (k : Chunk) : k.crlf.isTagArgument = k.isTagArgument := by
  rw [isTagArgument, isTagArgument, token_crlf]
  cases k.token with
  | none => rfl
  | some t => cases t <;> rfl

theorem IsLexical.break_not_mem_token {t : Token} (h : k.IsLexical) (text : String)
    (hk : k.token = some t) (ht : t = .comment text ∨ t = .word text ∨ t = .openTag text) :
    '\n' ∉ text.toList := by
  have hbreak : '\n' ∉ k.text :=
    h.break_not_mem (by rcases ht with rfl | rfl | rfl <;> rw [isGap, hk])
      (by rcases ht with rfl | rfl | rfl <;> simp [hk])
  cases h with
  | blank _ | join _ | newline _ | quoted _ | tagEnd | less | closeTag _ _ _ =>
    rcases ht with rfl | rfl | rfl <;> simp at hk
  | comment _ | word _ _ _ | openTag _ _ =>
    obtain rfl := Option.some.inj hk
    rcases ht with ht | ht | ht <;> cases ht
    simp_all

/-- Only quoted literals add line breaks to arguments. -/
theorem IsLexical.argumentWords?_crlf (h : k.IsLexical) :
    k.crlf.token.bind Token.argumentWords? =
      (k.token.bind Token.argumentWords?).map (List.map Text.crlf) := by
  rw [token_crlf]
  cases hk : k.token with
  | none => rfl
  | some t => exact Token.argumentWords?_crlf fun text htext => h.break_not_mem_token text hk htext

theorem IsLexical.tagArgument?_crlf (h : k.IsLexical) :
    k.crlf.token.bind Token.tagArgument? =
      (k.token.bind Token.tagArgument?).map Text.crlf := by
  rw [token_crlf]
  cases hk : k.token with
  | none => rfl
  | some t =>
    cases t with
    | word text =>
      have htext := h.break_not_mem_token text hk (by simp)
      simp [Token.crlf, Token.tagArgument?, Text.crlf_eq_self htext]
    | _ => rfl

end Chunk

theorem Written.crlf {ks : List Chunk} (h : Written ks) (hcr : '\r' ∉ textOf ks) :
    Written (ks.map Chunk.crlf) := by
  induction ks with
  | nil => exact .nil
  | cons k ks ih =>
    rw [textOf_cons, List.mem_append, not_or] at hcr
    obtain ⟨hk, hks, hseam⟩ := Written.cons_iff.1 h
    refine Written.cons_iff.2 ⟨hk.crlf hcr.1, ih hks hcr.2, fun y hy => ?_⟩
    obtain ⟨x, hx, rfl⟩ := Option.map_eq_some_iff.1 (List.head?_map ▸ Option.mem_def.1 hy)
    rw [Chunk.meets_crlf hk (hks.isLexical x (List.mem_of_mem_head? hx))]
    exact hseam x hx

theorem textOf_map_crlf {ks : List Chunk} (h : ∀ k ∈ ks, k.IsLexical) :
    textOf (ks.map Chunk.crlf) = Text.crlfChars (textOf ks) := by
  induction ks with
  | nil => rfl
  | cons k ks ih =>
    rw [List.map_cons, textOf_cons, textOf_cons, Text.crlfChars_append,
      (h k (by simp)).text_crlf, ih fun x hx => h x (by simp [hx])]

/-! ## Arguments -/

theorem extendArguments_map_crlf (joined : Bool) (arguments words : List String) :
    extendArguments joined (arguments.map Text.crlf) (words.map Text.crlf) =
      (extendArguments joined arguments words).map Text.crlf := by
  unfold extendArguments
  rw [List.getLast?_map]
  cases joined with
  | false => simp
  | true =>
    cases hlast : arguments.getLast? with
    | none => simp
    | some last =>
      cases words with
      | nil => simp
      | cons first more => simp [Text.crlf_append, List.map_dropLast]

theorem gatherArguments_map_crlf {ks : List Chunk} (h : ∀ k ∈ ks, k.IsLexical) (touching : Bool)
    (arguments : List String) :
    gatherArguments touching (arguments.map Text.crlf) (ks.map Chunk.crlf) =
      (gatherArguments touching arguments ks).map Text.crlf := by
  induction ks generalizing touching arguments with
  | nil => rfl
  | cons k ks ih =>
    have hks := ih fun x hx => h x (by simp [hx])
    rw [List.map_cons, gatherArguments, gatherArguments, (h k (by simp)).argumentWords?_crlf]
    cases k.token.bind Token.argumentWords? with
    | none => exact hks _ _
    | some words =>
      rw [Option.map_some, ← hks, ← extendArguments_map_crlf]

theorem tagArguments_map_crlf {ks : List Chunk} (h : ∀ k ∈ ks, k.IsLexical) :
    tagArguments (ks.map Chunk.crlf) = (tagArguments ks).map Text.crlf := by
  induction ks with
  | nil => rfl
  | cons k ks ih =>
    have hks := ih fun x hx => h x (by simp [hx])
    rw [tagArguments, tagArguments] at hks ⊢
    rw [List.map_cons, List.filterMap_cons, List.filterMap_cons, (h k (by simp)).tagArgument?_crlf]
    cases k.token.bind Token.tagArgument? <;> simp [hks]

/-! ## Line breaks of arguments -/

theorem BreaksInQuotes.of_break_not_mem {s : String} (h : '\n' ∉ s.toList) : BreaksInQuotes s :=
  ⟨[s], by simp, by simpa using .inr h⟩

theorem BreaksInQuotes.append {a b : String} (ha : BreaksInQuotes a) (hb : BreaksInQuotes b) :
    BreaksInQuotes (a ++ b) := by
  obtain ⟨as, rfl, has⟩ := ha
  obtain ⟨bs, rfl, hbs⟩ := hb
  refine ⟨as ++ bs, by simp, fun p hp => ?_⟩
  exact (List.mem_append.1 hp).elim (has p) (hbs p)

theorem isQuotedLiteral_ofList {body : List Char} (h : spanQuoted? body = some (body, [])) :
    isQuotedLiteral (String.ofList ('"' :: body)) = true := by
  simp [isQuotedLiteral, h]

theorem Chunk.IsLexical.breaksInQuotes {k : Chunk} (h : k.IsLexical) {words : List String}
    (hwords : k.token.bind Token.argumentWords? = some words) : ∀ w ∈ words, BreaksInQuotes w := by
  obtain ⟨t, ht, hwords⟩ := Option.bind_eq_some_iff.1 hwords
  have hbreak := fun text => h.break_not_mem_token text ht
  intro w hw
  cases t with
  | quoted text =>
    obtain rfl : w = text := by simpa [← Option.some.inj hwords] using hw
    refine ⟨[w], by simp, fun p hp => .inl ?_⟩
    obtain rfl := List.mem_singleton.1 hp
    cases h with
    | quoted hbody =>
      obtain rfl : _ = p := Token.quoted.inj (Option.some.inj ht)
      exact isQuotedLiteral_ofList hbody
    | _ => simp at ht
  | comment text =>
    obtain rfl := Option.some.inj hwords
    obtain ⟨cs, hcs, rfl⟩ := List.mem_map.1 hw
    refine .of_break_not_mem fun hmem => hbreak text (by simp) ?_
    rw [String.toList_ofList] at hmem
    exact Text.mem_of_mem_words hcs hmem
  | word text =>
    obtain rfl : w = text := by simpa [← Option.some.inj hwords] using hw
    exact .of_break_not_mem (hbreak w (by simp))
  | openTag name =>
    obtain rfl : w = "<" ++ name := by simpa [← Option.some.inj hwords] using hw
    exact .of_break_not_mem (by simpa using hbreak name (by simp))
  | tagEnd =>
    obtain rfl : w = ">" := by simpa [← Option.some.inj hwords] using hw
    exact .of_break_not_mem (by decide)
  | less =>
    obtain rfl : w = "<" := by simpa [← Option.some.inj hwords] using hw
    exact .of_break_not_mem (by decide)
  | newline => simp [Token.argumentWords?] at hwords
  | closeTag name => simp [Token.argumentWords?] at hwords

/-- A word goes on with the last argument, or is an argument of its own. -/
theorem mem_extendArguments {joined : Bool} {arguments words : List String} {a : String}
    (h : a ∈ extendArguments joined arguments words) :
    a ∈ arguments ∨ a ∈ words ∨ ∃ last ∈ arguments, ∃ first ∈ words, a = last ++ first := by
  unfold extendArguments at h
  split at h
  · rename_i last first more hlast
    rcases List.mem_append.1 h with h | h
    · exact .inl (List.dropLast_subset _ h)
    · rcases List.mem_cons.1 h with rfl | h
      · exact .inr (.inr ⟨last, List.mem_of_getLast? hlast, first, by simp, rfl⟩)
      · exact .inr (.inl (by simp [h]))
  · exact (List.mem_append.1 h).imp_right .inl

theorem breaksInQuotes_gatherArguments {ks : List Chunk} (h : ∀ k ∈ ks, k.IsLexical)
    (touching : Bool) {arguments : List String} (harguments : ∀ a ∈ arguments, BreaksInQuotes a) :
    ∀ a ∈ gatherArguments touching arguments ks, BreaksInQuotes a := by
  induction ks generalizing touching arguments with
  | nil => exact harguments
  | cons k ks ih =>
    have hks := ih fun x hx => h x (by simp [hx])
    rw [gatherArguments]
    cases hwords : k.token.bind Token.argumentWords? with
    | none => exact hks _ harguments
    | some words =>
      have hnew := (h k (by simp)).breaksInQuotes hwords
      refine hks _ fun a ha => ?_
      rcases mem_extendArguments ha with ha | ha | ⟨last, hlast, first, hfirst, rfl⟩
      · exact harguments a ha
      · exact hnew a ha
      · exact (harguments last hlast).append (hnew first hfirst)

theorem breaksInQuotes_tagArguments {ks : List Chunk} (h : ∀ k ∈ ks, k.IsLexical) :
    ∀ a ∈ tagArguments ks, BreaksInQuotes a := by
  intro a ha
  obtain ⟨k, hk, hword⟩ := List.mem_filterMap.1 ha
  obtain ⟨t, ht, hword⟩ := Option.bind_eq_some_iff.1 hword
  -- what is an argument in an open tag is one in a directive
  have hwords : t.argumentWords? = some [a] := by
    cases t <;> simp_all [Token.tagArgument?, Token.argumentWords?]
  exact (h k hk).breaksInQuotes (Option.bind_eq_some_iff.2 ⟨t, ht, hwords⟩) a (by simp)

/-! ## Pages -/

namespace Layout

mutual
/-- The statement with its lines ended by `CR LF`. -/
def crlf : Layout → Layout
  | comment gap text => comment (gap.map Chunk.crlf) text
  | directive gap name arguments =>
    directive (gap.map Chunk.crlf) name (arguments.map Chunk.crlf)
  | block gap name arguments inside trailing closing blanks =>
    block (gap.map Chunk.crlf) name (arguments.map Chunk.crlf) (crlfAll inside)
      (trailing.map Chunk.crlf) closing blanks

def crlfAll : List Layout → List Layout
  | [] => []
  | l :: ls => l.crlf :: crlfAll ls
end

theorem gap_crlf (l : Layout) : l.crlf.gap = l.gap.map Chunk.crlf := by
  cases l <;> simp [crlf, gap]

theorem isDirective_crlf (l : Layout) : l.crlf.isDirective = l.isDirective := by
  cases l <;> simp [crlf, isDirective]

mutual
theorem own_crlf (l : Layout) : l.crlf.own = l.own.map Chunk.crlf := by
  match l with
  | comment gap text => simp [crlf, own, Chunk.crlf]
  | directive gap name arguments => simp [crlf, own, Chunk.crlf]
  | block gap name arguments inside trailing closing blanks =>
    simp [crlf, own, ownAll_crlfAll inside, openTagChunks, Chunk.crlf]

theorem ownAll_crlfAll (ls : List Layout) : ownAll (crlfAll ls) = (ownAll ls).map Chunk.crlf := by
  match ls with
  | [] => simp [crlfAll]
  | l :: ls => simp [crlfAll, gap_crlf, own_crlf l, ownAll_crlfAll ls]
end

theorem breaksLine_map_crlf (ks : List Chunk) :
    breaksLine (ks.map Chunk.crlf) = breaksLine ks := by
  rw [breaksLine, breaksLine, List.any_map]
  congr 1
  funext k
  rw [Function.comp_apply, Chunk.token_crlf]
  cases k.token with
  | none => rfl
  | some t => cases t <;> rfl

theorem all_map_crlf {p : Chunk → Bool} (hp : ∀ k : Chunk, p k.crlf = p k) (ks : List Chunk) :
    (ks.map Chunk.crlf).all p = ks.all p := by
  rw [List.all_map]
  congr 1
  exact funext hp

mutual
theorem grammatical_crlf (l : Layout) (h : l.Grammatical) : l.crlf.Grammatical := by
  match l with
  | comment gap text =>
    rw [Grammatical] at h
    rwa [crlf, Grammatical, all_map_crlf Chunk.isGap_crlf]
  | directive gap name arguments =>
    rw [Grammatical] at h
    rw [crlf, Grammatical, all_map_crlf Chunk.isGap_crlf, all_map_crlf Chunk.isArgument_crlf]
    refine ⟨h.1, h.2.1, fun k hk => ?_⟩
    obtain ⟨x, hx, rfl⟩ := Option.map_eq_some_iff.1 (List.getLast?_map ▸ Option.mem_def.1 hk)
    rw [Chunk.token_crlf, Option.isSome_map]
    exact h.2.2 x hx
  | block gap name arguments inside trailing closing blanks =>
    rw [Grammatical] at h
    rw [crlf, Grammatical, all_map_crlf Chunk.isGap_crlf, all_map_crlf Chunk.isTagArgument_crlf]
    exact ⟨h.1, h.2.1, grammaticalAll_crlfAll inside h.2.2.1, h.2.2.2⟩

theorem grammaticalAll_crlfAll {last : Bool} {trailing : List Chunk} (ls : List Layout)
    (h : GrammaticalAll last trailing ls) :
    GrammaticalAll last (trailing.map Chunk.crlf) (crlfAll ls) := by
  match ls with
  | [] =>
    rw [GrammaticalAll] at h
    rwa [crlfAll, GrammaticalAll, all_map_crlf Chunk.isGap_crlf]
  | l :: ls =>
    rw [GrammaticalAll] at h
    rw [crlfAll, GrammaticalAll, isDirective_crlf]
    refine ⟨grammatical_crlf l h.1, fun hdir => (h.2.1 hdir).imp (fun hbreak => ?_) ?_,
      grammaticalAll_crlfAll ls h.2.2⟩
    · cases ls with
      | nil => rwa [crlfAll, nextGap, breaksLine_map_crlf]
      | cons m ls => rwa [crlfAll, nextGap, gap_crlf, breaksLine_map_crlf]
    · rintro ⟨hlast, rfl⟩
      exact ⟨hlast, by rw [crlfAll]⟩
end

mutual
theorem shape_crlf (l : Layout) (h : ∀ k ∈ l.own, k.IsLexical) :
    l.crlf.shape = l.shape.mapArguments Text.crlf := by
  match l with
  | comment gap text => simp [crlf, shape, Shape.mapArguments]
  | directive gap name arguments =>
    rw [own] at h
    have hlexical : ∀ k ∈ arguments, k.IsLexical := fun k hk => h k (by simp [hk])
    have harguments := gatherArguments_map_crlf hlexical false []
    rw [crlf, shape, shape, Shape.mapArguments, ← harguments, List.map_nil]
  | block gap name arguments inside trailing closing blanks =>
    rw [own] at h
    rw [crlf, shape, shape, Shape.mapArguments,
      tagArguments_map_crlf fun k hk => h k (by simp [openTagChunks, hk]),
      shapes_crlfAll inside fun k hk => h k (by simp [hk])]

theorem shapes_crlfAll (ls : List Layout) (h : ∀ k ∈ ownAll ls, k.IsLexical) :
    shapes (crlfAll ls) = Shape.mapAllArguments Text.crlf (shapes ls) := by
  match ls with
  | [] => simp [crlfAll, shapes, Shape.mapAllArguments]
  | l :: ls =>
    rw [ownAll_cons] at h
    rw [crlfAll, shapes, shapes, Shape.mapAllArguments, shape_crlf l fun k hk => h k (by simp [hk]),
      shapes_crlfAll ls fun k hk => h k (by simp [hk])]
end

mutual
theorem breaksInQuotes_shape (l : Layout) (h : ∀ k ∈ l.own, k.IsLexical) :
    ∀ a ∈ l.shape.arguments, BreaksInQuotes a := by
  match l with
  | comment gap text => simp [shape, Shape.arguments]
  | directive gap name arguments =>
    rw [own] at h
    rw [shape, Shape.arguments]
    exact breaksInQuotes_gatherArguments (fun k hk => h k (by simp [hk])) false (by simp)
  | block gap name arguments inside trailing closing blanks =>
    rw [own] at h
    rw [shape, Shape.arguments]
    intro a ha
    rcases List.mem_append.1 ha with ha | ha
    · exact breaksInQuotes_tagArguments (fun k hk => h k (by simp [openTagChunks, hk])) a ha
    · exact breaksInQuotes_shapes inside (fun k hk => h k (by simp [hk])) a ha

theorem breaksInQuotes_shapes (ls : List Layout) (h : ∀ k ∈ ownAll ls, k.IsLexical) :
    ∀ a ∈ Shape.allArguments (shapes ls), BreaksInQuotes a := by
  match ls with
  | [] => simp [shapes, Shape.allArguments]
  | l :: ls =>
    rw [ownAll_cons] at h
    rw [shapes, Shape.allArguments]
    intro a ha
    rcases List.mem_append.1 ha with ha | ha
    · exact breaksInQuotes_shape l (fun k hk => h k (by simp [hk])) a ha
    · exact breaksInQuotes_shapes ls (fun k hk => h k (by simp [hk])) a ha
end

end Layout

/-- The page with its lines ended by `CR LF`. -/
def Page.crlf (p : Page) : Page := ⟨Layout.crlfAll p.statements, p.trailing.map Chunk.crlf⟩

theorem Page.chunks_crlf (p : Page) : p.crlf.chunks = p.chunks.map Chunk.crlf := by
  rw [Page.chunks, Page.chunks, Page.crlf, Layout.ownAll_crlfAll, List.map_append]

/-- A legible page without a `CR` stays legible. -/
theorem Page.Legible.crlf {p : Page} (h : p.Legible) (hcr : '\r' ∉ textOf p.chunks) :
    p.crlf.Legible :=
  ⟨by rw [Page.chunks_crlf]; exact h.written.crlf hcr,
    Layout.grammaticalAll_crlfAll _ h.grammatical⟩

/-- A file without `CR` that can be read can still be read when its lines are ended by `CR LF`. It
says the same then, but for the line breaks of its arguments, which stand in quoted literals. -/
theorem read_crlf {source : SourceFile} {document : Fragment} (hcr : '\r' ∉ source.text.toList)
    (h : Fragment.read source = .ok document) :
    (∃ document', Fragment.read ⟨source.path, Text.crlf source.text⟩ = .ok document' ∧
      document'.shape = document.shape.mapArguments Text.crlf) ∧
      ∀ a ∈ document.shape.arguments, BreaksInQuotes a := by
  obtain ⟨p, hp, htext, hshows⟩ := Fragment.exists_page_of_read h
  have hlexical := hp.written.isLexical
  have hstatements : ∀ k ∈ Layout.ownAll p.statements, k.IsLexical :=
    fun k hk => hlexical k (List.mem_append_left _ hk)
  rw [hshows.shape]
  constructor
  · obtain ⟨document', hread, hshape⟩ := (hp.crlf (htext ▸ hcr)).exists_read
      ⟨source.path, Text.crlf source.text⟩
      (by rw [Text.toList_crlf, Page.chunks_crlf, textOf_map_crlf hlexical, htext])
    refine ⟨document', hread, ?_⟩
    rw [hshape, Page.crlf, Layout.shapes_crlfAll _ hstatements, Shape.mapArguments, List.map_nil]
  · exact Layout.breaksInQuotes_shapes _ hstatements

/-- Joined lines, touching arguments and a quoted literal over two lines. -/
theorem read_crlf_crowded :
    ∃ document, '\r' ∉ "A x\\\n \"p\nq\"r # s\n<B>\n# c\n</B>\n".toList ∧
      Fragment.read ⟨⟨"site.conf"⟩, "A x\\\n \"p\nq\"r # s\n<B>\n# c\n</B>\n"⟩ =
        .ok document ∧
      (∃ document', Fragment.read
          ⟨⟨"site.conf"⟩, Text.crlf "A x\\\n \"p\nq\"r # s\n<B>\n# c\n</B>\n"⟩ = .ok document' ∧
        document'.shape = document.shape.mapArguments Text.crlf) ∧
      ∀ a ∈ document.shape.arguments, BreaksInQuotes a := by
  have hread : (Fragment.read
      ⟨⟨"site.conf"⟩, "A x\\\n \"p\nq\"r # s\n<B>\n# c\n</B>\n"⟩).toOption.isSome = true := by
    decide +kernel
  obtain ⟨document, hdocument⟩ := Option.isSome_iff_exists.1 hread
  have h := eq_ok_of_toOption hdocument
  have hcr : '\r' ∉ "A x\\\n \"p\nq\"r # s\n<B>\n# c\n</B>\n".toList := by decide +kernel
  exact ⟨document, hcr, h, @read_crlf ⟨_, _⟩ document hcr h⟩

end HttpdConf
