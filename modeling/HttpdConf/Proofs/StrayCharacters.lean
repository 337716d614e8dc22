import HttpdConf.Proofs.Chunks
import HttpdConf.Text.Slice

/-!
# Where scanning fails

Scanning fails only at a place where no token can start, and there are just three of these: a
carriage return without a line feed, a close tag that is not complete, and a quoted literal without
an end. Up to that place the text is scanned as if it ended there, and what comes before does not
matter, except that a comment goes on up to the end of its line.

## Main definitions

* `QuotedBody`: the characters between the quotes of a literal
* `StartsStray`: the texts that no token starts

## Main results

* `Piece.read?_eq_none_iff`: no piece is read exactly where no token starts
* `scan_eq_error_iff`: scanning fails exactly at the first place where no token starts
-/

namespace HttpdConf

/-- The characters between the quotes of a literal. A backslash takes the next character with it,
which may not be `LF`. -/
inductive QuotedBody : List Char → Prop
  | nil : QuotedBody []
  | plain {c : Char} {cs : List Char} (hquote : c ≠ '"') (hback : c ≠ '\\')
      (hcs : QuotedBody cs) : QuotedBody (c :: cs)
  | escape {c : Char} {cs : List Char} (hc : c ≠ '\n') (hcs : QuotedBody cs) :
      QuotedBody ('\\' :: c :: cs)

/-- A text that starts with no token, blank or joined line. -/
inductive StartsStray : List Char → Prop
  /-- `CR` without `LF` -/
  | carriageReturn {rest : List Char} (h : rest.head? ≠ some '\n') : StartsStray ('\r' :: rest)
  /-- `</` and the first letter of a name, without the rest of a close tag -/
  | closeTag {c : Char} {rest : List Char} (hc : isNameStart c = true)
      (h : ∀ name gap tail, rest = name ++ (gap ++ '>' :: tail) →
        (∀ d ∈ name, isNameChar d = true) → ¬ ∀ d ∈ gap, d = ' ' ∨ d = '\t') :
      StartsStray ('<' :: '/' :: c :: rest)
  /-- a quote without another one that ends the literal -/
  | quote {rest : List Char} (h : ∀ body tail, rest = body ++ '"' :: tail → ¬ QuotedBody body) :
      StartsStray ('"' :: rest)

/-! ## Reading no piece -/

theorem spanQuoted?_of_quotedBody {body : List Char} (h : QuotedBody body) (tail : List Char) :
    spanQuoted? (body ++ '"' :: tail) = some (body ++ ['"'], tail) := by
  induction h with
  | nil => rfl
  | plain hquote hback _ ih =>
    rw [List.cons_append, spanQuoted?_cons hquote hback, ih]
    rfl
  | escape hc _ ih => simp [spanQuoted?, hc, ih]

theorem exists_quotedBody {cs out tail : List Char} (h : spanQuoted? cs = some (out, tail)) :
    ∃ body, out = body ++ ['"'] ∧ QuotedBody body := by
  fun_induction spanQuoted? cs generalizing out with
  | case1 => simp at h
  | case2 cs => exact ⟨[], by simp_all, .nil⟩
  | case3 => simp at h
  | case4 => simp at h
  | case5 c cs hc ih =>
    obtain ⟨⟨b, r⟩, hb, he⟩ := Option.map_eq_some_iff.1 h
    obtain ⟨rfl, rfl⟩ := Prod.mk.inj he
    obtain ⟨body, rfl, hbody⟩ := ih hb
    exact ⟨'\\' :: c :: body, rfl, .escape (by simpa using hc) hbody⟩
  | case6 c cs hquote hback hback' ih =>
    obtain ⟨⟨b, r⟩, hb, he⟩ := Option.map_eq_some_iff.1 h
    obtain ⟨rfl, rfl⟩ := Prod.mk.inj he
    obtain ⟨body, rfl, hbody⟩ := ih hb
    have hc := ne_backslash hback hback'
    exact ⟨c :: body, rfl, .plain (by simpa using hquote) hc hbody⟩

theorem spanQuoted?_eq_none_iff {cs : List Char} :
    spanQuoted? cs = none ↔ ∀ body tail, cs = body ++ '"' :: tail → ¬ QuotedBody body := by
  constructor
  · rintro h body tail rfl hbody
    simp [spanQuoted?_of_quotedBody hbody tail] at h
  · intro h
    rw [Option.eq_none_iff_forall_ne_some]
    rintro ⟨out, tail⟩ hsome
    obtain ⟨body, rfl, hbody⟩ := exists_quotedBody hsome
    exact h body tail (by simp [← spanQuoted?_append hsome]) hbody

namespace Piece

theorem readCloseTag?_eq_none_iff {c : Char} {cs : List Char} (hc : isNameStart c = true) :
    readCloseTag? (c :: cs) = none ↔ ∀ name gap tail, cs = name ++ (gap ++ '>' :: tail) →
      (∀ d ∈ name, isNameChar d = true) → ¬ ∀ d ∈ gap, d = ' ' ∨ d = '\t' := by
  constructor
  · rintro h name gap tail rfl hname hgap
    have hread := readAngle?_closeTag hc hname hgap tail
    rw [readAngle?, if_pos hc, h] at hread
    simp at hread
  · intro h
    rw [Option.eq_none_iff_forall_ne_some]
    intro p hsome
    unfold readCloseTag? at hsome
    simp only at hsome
    split at hsome
    · rename_i rest hrest
      -- the name, the blanks after it and a `>` make up what follows the first letter
      rw [List.dropWhile_cons_of_pos (isNameChar_of_isNameStart hc)] at hrest
      have hname := List.takeWhile_append_dropWhile (p := isNameChar) (l := cs)
      have hgap := List.takeWhile_append_dropWhile
        (p := fun c => c == ' ' || c == '\t') (l := cs.dropWhile isNameChar)
      rw [hrest] at hgap
      exact h _ _ rest (by rw [hgap, hname]) (fun d hd => List.mem_takeWhile_imp hd)
        fun d hd => by simpa using List.mem_takeWhile_imp hd
    · simp at hsome

/-- No piece is read exactly where no token starts. -/
theorem read?_eq_none_iff {c : Char} {cs : List Char} :
    read? c cs = none ↔ StartsStray (c :: cs) := by
  constructor
  · -- after most characters there is a piece to read, if only a word of one character
    intro h
    unfold read? at h
    split at h
    · simp at h
    · split at h
      · simp at h
      · split at h
        · simp at h
        · rename_i hbreak
          refine .carriageReturn fun hhead => ?_
          obtain ⟨rest, rfl⟩ := List.head?_eq_some_iff.1 hhead
          exact hbreak rest rfl
      · simp at h
      · exact .quote (spanQuoted?_eq_none_iff.1 (Option.map_eq_none_iff.1 h))
      · simp at h
      · unfold readAngle? at h
        split at h
        · split at h
          · exact .closeTag ‹_› ((readCloseTag?_eq_none_iff ‹_›).1 h)
          · simp at h
        · split at h <;> simp at h
        · simp at h
      · split at h <;> simp at h
  · intro h
    cases h with
    | carriageReturn h =>
      cases cs with
      | nil => rfl
      | cons d cs =>
        have hd : d ≠ '\n' := by simpa using h
        unfold read?
        simp [isSeparator]
        split <;> simp_all
    | @closeTag c rest hc h =>
      change readAngle? ('/' :: c :: rest) = none
      rw [readAngle?, if_pos hc]
      exact (readCloseTag?_eq_none_iff hc).2 h
    | quote h =>
      change (spanQuoted? cs).map _ = none
      rw [spanQuoted?_eq_none_iff.2 h]
      rfl

end Piece

/-! ## Scanning up to where no token starts -/

variable {offset : Nat} {k : Chunk} {ks : List Chunk} {cs rest : List Char}

/-- A stray character ends whatever comes before it, but a comment only when it is a carriage
return. -/
theorem StartsStray.stops (h : StartsStray cs)
    (hcomment : ∀ text, k.token = some (.comment text) → cs.head? = some '\r') : k.Stops cs := by
  unfold Chunk.Stops
  split
  · rename_i text htoken
    intro c hc
    exact .inl (Option.some.inj (hc.symm.trans (hcomment text htoken)))
  · cases h with
    | carriageReturn h =>
      refine ⟨spanWord_fst_cons.2 (.inl rfl), fun _ => Bool.eq_false_iff.2 fun hbreak => ?_⟩
      obtain ⟨br, tail, hbr, heq⟩ := startsWithBreak_iff.1 hbreak
      rcases hbr with rfl | rfl
      · simp at heq
      · obtain ⟨-, rfl⟩ := List.cons.inj heq
        exact h rfl
    | _ => exact ⟨spanWord_fst_cons.2 (.inl rfl), fun _ => rfl⟩
  · cases h <;> simp <;> decide
  · cases h <;> rfl
  · trivial

theorem StartsStray.scanFrom_eq (h : StartsStray cs) : scanFrom offset cs = .error ⟨offset⟩ := by
  cases cs with
  | nil => cases h
  | cons c cs =>
    rw [scanFrom]
    split
    · rfl
    · rename_i p hsome
      simp [Piece.read?_eq_none_iff.2 h] at hsome

/-- A scan that fails got up to where no token starts. -/
theorem exists_of_scanFrom_eq_error {e : StrayCharacter} (h : scanFrom offset cs = .error e) :
    ∃ ks rest, Written ks ∧ cs = textOf ks ++ rest ∧ (∀ x ∈ ks.getLast?, x.Stops rest) ∧
      StartsStray rest ∧ e.position = offset + extent ks := by
  fun_induction scanFrom offset cs with
  | case1 => simp at h
  | case2 offset c rest hread =>
    obtain rfl := Except.error.inj h
    exact ⟨[], c :: rest, .nil, rfl, by simp, Piece.read?_eq_none_iff.1 hread, rfl⟩
  | case3 offset c rest p hread hlt e' hscan ih =>
    obtain rfl := Except.error.inj h
    obtain ⟨ks, tail, hks, htext, hseam, hstray, hposition⟩ := ih hscan
    obtain ⟨hwritten, hstops⟩ := hks.cons_of_read? hread htext hseam
    refine ⟨p.chunk :: ks, tail, hwritten, ?_, hstops, hstray, ?_⟩
    · rw [textOf_cons, List.append_assoc, ← htext]
      exact (Piece.text_append_rest hread).symm
    · rw [hposition, extent_cons, Nat.add_assoc]
      rfl
  | case4 => simp at h

/-! ## Comments at the end -/

/-- The last token of a text is a comment just if the last chunk is one. -/
theorem Written.getLast?_comment_iff {text : String} (hks : Written ks) :
    (lexemesAt offset ks).getLast?.map Lexeme.token = some (.comment text) ↔
      ∃ k ∈ ks.getLast?, k.token = some (.comment text) := by
  -- only a line break can come after a comment, and that is a token too
  induction ks using List.reverseRecOn with
  | nil => simp [lexemesAt]
  | append_singleton ks k ih =>
    obtain ⟨hwritten, -, hseam⟩ := Written.append_iff.1 hks
    rw [List.getLast?_concat]
    cases htoken : k.token with
    | some t => simp [getLast?_lexemesAt_concat htoken, htoken]
    | none =>
      have hsame : lexemesAt offset (ks ++ [k]) = lexemesAt offset ks := by
        simp [lexemesAt_append, lexemesAt, Chunk.lexeme?, htoken]
      rw [hsame, ih hwritten]
      simp only [Option.mem_def, Option.some.injEq, exists_eq_left', htoken, reduceCtorEq,
        iff_false]
      rintro ⟨y, hy, hcomment⟩
      have hmeets := hseam y hy k rfl
      simp [Chunk.meets, hcomment, htoken] at hmeets

/-- Scanning fails exactly at the first place where no token starts: the text before it can be
scanned, and if that ends in a comment, then the comment ends where its line does. -/
theorem scan_eq_error_iff {text : String} {e : StrayCharacter} :
    scan text = .error e ↔
      ∃ (before after : String) (xs : List Lexeme), text = before ++ after ∧
        before.utf8ByteSize = e.position ∧ scan before = .ok xs ∧ StartsStray after.toList ∧
        ∀ x ∈ xs.getLast?, ∀ comment, x.token = Token.comment comment →
          after.toList.head? = some '\r' := by
  constructor
  · intro h
    obtain ⟨ks, rest, hks, htext, hseam, hstray, hposition⟩ := exists_of_scanFrom_eq_error h
    refine ⟨String.ofList (textOf ks), String.ofList rest, lexemesAt 0 ks, ?_, ?_, hks.scan_eq, ?_,
      ?_⟩
    · rw [← String.ofList_append, ← htext, String.ofList_toList]
    · rw [Text.utf8ByteSize_ofList, hposition, Nat.zero_add, extent]
    · rwa [String.toList_ofList]
    · intro x hx comment hcomment
      have hlast : (lexemesAt 0 ks).getLast?.map Lexeme.token = some (.comment comment) := by
        rw [Option.mem_def.1 hx, Option.map_some, hcomment]
      obtain ⟨k, hk, htoken⟩ := hks.getLast?_comment_iff.1 hlast
      have hstop := hseam k hk
      unfold Chunk.Stops at hstop
      rw [htoken] at hstop
      rw [String.toList_ofList]
      cases hstray with
      | carriageReturn => rfl
      | _ => simp at hstop
  · rintro ⟨before, after, xs, rfl, hposition, hscan, hstray, hcomment⟩
    obtain ⟨ks, hks, htext, rfl⟩ := scanFrom_eq_ok_iff.1 hscan
    have hseam : ∀ k ∈ ks.getLast?, k.Stops after.toList := by
      intro k hk
      refine hstray.stops fun comment htoken => ?_
      obtain ⟨x, hx, hxtoken⟩ := Option.map_eq_some_iff.1
        (hks.getLast?_comment_iff.2 ⟨k, hk, htoken⟩)
      exact hcomment x hx comment hxtoken
    rw [scan, String.toList_append, ← htext, scanFrom_textOf_append hks hseam, hstray.scanFrom_eq]
    rw [Nat.zero_add, extent, htext, Text.byteLength_toList, hposition]
    rfl

end HttpdConf
