import HttpdConf.Proofs.Rendering

/-!
# Seams between statements

When statements are added and deleted, a statement ends up before a gap that it was never next to.
Unless the gap has joined lines, this does little harm. A comment takes in the blanks that follow
it, which are not part of what it says; anything else ends where the gap starts, as long as it does
not end in a backslash.

## Main definitions

* `Gap`, `Loose`: a gap, and a gap without joined lines
* `Layout.Prints`, `Layout.PrintsAll`: layouts that have the text and the shape of nodes

## Main results

* `Layout.exists_lengthened`: a statement that ends in a comment may take in blanks
* `Layout.Prints.cons`: a statement is put before others, after any loose gap
* `Layout.prints_block`: a block is printed around what is inside it
-/

namespace HttpdConf

/-! ## Gaps -/

/-- The chunks are a gap: blanks, joined lines and line breaks. -/
structure Gap (ks : List Chunk) : Prop where
  all_isGap : ks.all Chunk.isGap = true
  isLexical : ∀ k ∈ ks, k.IsLexical

theorem gap_cons {k : Chunk} {ks : List Chunk} :
    Gap (k :: ks) ↔ (k.isGap = true ∧ k.IsLexical) ∧ Gap ks := by
  constructor
  · rintro ⟨hall, hlex⟩
    rw [List.all_cons, Bool.and_eq_true] at hall
    exact ⟨⟨hall.1, hlex k (by simp)⟩, hall.2, fun x hx => hlex x (by simp [hx])⟩
  · rintro ⟨⟨hk, hform⟩, hall, hlex⟩
    exact ⟨by rw [List.all_cons, hk, hall]; rfl, by simpa using ⟨hform, hlex⟩⟩

/-- Whatever comes after a gap, the gap ends there. -/
theorem Gap.written_append {ks rest : List Chunk} (h : Gap ks) (hrest : Written rest) :
    Written (ks ++ rest) := by
  induction ks with
  | nil => exact hrest
  | cons k ks ih =>
    obtain ⟨⟨hk, hform⟩, hks⟩ := gap_cons.1 h
    rw [List.cons_append, Written.cons_iff]
    exact ⟨hform, ih hks, fun y _ => Chunk.isGap.meets hk⟩

/-! ## Loose gaps -/

/-- The chunks are a gap without joined lines. -/
structure Loose (ks : List Chunk) : Prop where
  all_isGap : ks.all Chunk.isGap = true
  isLexical : ∀ k ∈ ks, k.IsLexical
  not_mem : '\\' ∉ textOf ks

theorem loose_nil : Loose [] := ⟨rfl, by simp, by simp⟩

theorem loose_cons {k : Chunk} {ks : List Chunk} :
    Loose (k :: ks) ↔ (k.isGap = true ∧ k.IsLexical ∧ '\\' ∉ k.text) ∧ Loose ks := by
  constructor
  · rintro ⟨hall, hlex, hmem⟩
    rw [List.all_cons, Bool.and_eq_true] at hall
    rw [textOf_cons, List.mem_append, not_or] at hmem
    exact ⟨⟨hall.1, hlex k (by simp), hmem.1⟩, hall.2, fun x hx => hlex x (by simp [hx]), hmem.2⟩
  · rintro ⟨⟨hk, hform, hmem⟩, hall, hlex, hmem'⟩
    refine ⟨by rw [List.all_cons, hk, hall]; rfl, by simpa using ⟨hform, hlex⟩, ?_⟩
    rw [textOf_cons, List.mem_append, not_or]
    exact ⟨hmem, hmem'⟩

/-- A new line and its indentation. -/
def newLine (depth : Nat) : List Chunk := .newline ['\n'] :: List.replicate (4 * depth) (.blank ' ')

theorem textOf_newLine (depth : Nat) : textOf (newLine depth) = ("\n" ++ indent depth).toList := by
  have hblanks : ∀ n, textOf (List.replicate n (.blank ' ')) = List.replicate n ' ' := by
    intro n
    induction n with
    | zero => rfl
    | succ n ih => rw [List.replicate_succ, List.replicate_succ, textOf_cons, ih]; rfl
  simp [newLine, indent, hblanks]

theorem loose_newline {ks : List Chunk} (h : Loose ks) : Loose (.newline ['\n'] :: ks) :=
  loose_cons.2 ⟨⟨rfl, .newline (.inl rfl), by simp⟩, h⟩

theorem loose_newLine (depth : Nat) : Loose (newLine depth) := by
  refine loose_newline ?_
  induction 4 * depth with
  | zero => exact loose_nil
  | succ n ih => exact loose_cons.2 ⟨⟨rfl, .blank rfl, by simp⟩, ih⟩

namespace Loose

variable {ks rest : List Chunk}

theorem gap (h : Loose ks) : Gap ks := ⟨h.all_isGap, h.isLexical⟩

theorem written_append (h : Loose ks) (hrest : Written rest) : Written (ks ++ rest) :=
  h.gap.written_append hrest

/-- Without joined lines, every line break ends a line. -/
theorem breaksLine (h : Loose ks) (hmem : '\n' ∈ textOf ks) : breaksLine ks = true := by
  obtain ⟨k, hk, hchar⟩ := List.mem_flatMap.1 hmem
  refine List.any_eq_true.2 ⟨k, hk, ?_⟩
  cases h.isLexical k hk with
  | blank hc =>
    obtain rfl : '\n' = _ := by simpa using hchar
    exact absurd hc (by decide)
  -- a joined line would bring a backslash into the text
  | join hbr =>
    exact absurd (List.mem_flatMap.2 ⟨_, hk, by simp⟩) h.not_mem
  | newline hbr => rfl
  | _ => simpa [Chunk.isGap] using List.all_eq_true.1 h.all_isGap _ hk

/-- The blanks at the start of a gap can be taken off. -/
theorem exists_blanks (h : Loose ks) : ∃ bs ks', textOf ks = bs ++ textOf ks' ∧
    (∀ b ∈ bs, isSeparator b = true) ∧ Loose ks' ∧
    HttpdConf.breaksLine ks' = HttpdConf.breaksLine ks ∧
    ∀ y ∈ ks'.head?, y.token = some .newline := by
  induction ks with
  | nil => exact ⟨[], [], rfl, by simp, h, rfl, by simp⟩
  | cons k ks ih =>
    obtain ⟨⟨hk, hform, hmem⟩, hks⟩ := loose_cons.1 h
    cases hform with
    -- a blank is taken off, and the rest goes on in the same way
    | blank hc =>
      obtain ⟨bs, ks', htext, hbs, hks', hbreaks, hhead⟩ := ih hks
      refine ⟨_ :: bs, ks', by rw [textOf_cons, htext]; rfl, by simpa using ⟨hc, hbs⟩, hks', ?_,
        hhead⟩
      rw [hbreaks]
      simp [HttpdConf.breaksLine]
    | join hbr => simp at hmem
    | newline hbr => exact ⟨[], _, rfl, by simp, h, rfl, by simp⟩
    | _ => simp [Chunk.isGap] at hk

end Loose

/-! ## Comments that take in blanks -/

theorem Chunk.exists_body_of_isLexical {text : String} (h : (Chunk.comment text).IsLexical) :
    ∃ body, text = String.ofList ('#' :: body) ∧ ∀ c ∈ body, c ≠ '\r' ∧ c ≠ '\n' := by
  generalize hk : Chunk.comment text = k at h
  cases h with
  | comment hbody => exact ⟨_, by simpa using congrArg Chunk.token hk, hbody⟩
  | _ => simpa using congrArg Chunk.token hk

/-- A comment with blanks after it is a comment. -/
theorem Chunk.isLexical_lengthened {text : String} {bs : List Char}
    (h : (Chunk.comment text).IsLexical) (hbs : ∀ b ∈ bs, isSeparator b = true) :
    (Chunk.comment (text ++ String.ofList bs)).IsLexical := by
  obtain ⟨body, rfl, hbody⟩ := Chunk.exists_body_of_isLexical h
  rw [← String.ofList_append, List.cons_append]
  refine .comment fun c hc => ?_
  rcases List.mem_append.1 hc with hc | hc
  · exact hbody c hc
  · have hsep := hbs c hc
    constructor <;> rintro rfl <;> exact absurd hsep (by decide)

/-- What can stand before a comment does not depend on what it says. -/
theorem Chunk.meets_lengthened {x : Chunk} {text : String} (h : (Chunk.comment text).IsLexical)
    (bs : List Char) :
    x.meets (.comment (text ++ String.ofList bs)) = x.meets (.comment text) := by
  obtain ⟨body, rfl, -⟩ := Chunk.exists_body_of_isLexical h
  rw [← String.ofList_append]
  unfold Chunk.meets
  split <;> simp [Chunk.startsTag]

namespace Layout

/-- A statement that ends in a comment may take in blanks. -/
theorem exists_lengthened {l : Layout} {text : String} {bs : List Char} (hl : l.Grammatical)
    (hw : Written l.own) (hlast : l.own.getLast? = some (.comment text))
    (hbs : ∀ b ∈ bs, isSeparator b = true) :
    ∃ l' : Layout, textOf l'.own = textOf l.own ++ bs ∧ l'.shape = l.shape ∧ l'.Grammatical ∧
      Written l'.own ∧ l'.own.getLast? = some (.comment (text ++ String.ofList bs)) := by
  have hcomment := hw.isLexical _ (List.mem_of_getLast? hlast)
  have hlex := Chunk.isLexical_lengthened hcomment hbs
  cases l with
  | comment gap c =>
    obtain rfl : c = text := by
      rw [own, List.getLast?_singleton] at hlast
      simpa using congrArg Chunk.token (Option.some.inj hlast)
    refine ⟨.comment gap (c ++ String.ofList bs), by simp [own], ?_, hl, ?_, by simp [own]⟩
    · rw [shape, shape, commentText_append hbs]
    · rw [own, Written.cons_iff]
      exact ⟨hlex, .nil, by simp⟩
  | directive gap name arguments =>
    -- the name is no comment, so the last argument is one
    obtain ⟨before, rfl⟩ : ∃ before, arguments = before ++ [.comment text] := by
      rw [own, List.getLast?_cons] at hlast
      cases hargs : arguments.getLast? with
      | none => simp [hargs, Chunk.comment, Chunk.word] at hlast
      | some y =>
        obtain rfl : y = .comment text := by simpa [hargs] using hlast
        exact List.getLast?_eq_some_iff.1 hargs
    refine ⟨.directive gap name (before ++ [.comment (text ++ String.ofList bs)]), ?_, ?_, ?_, ?_,
      ?_⟩
    · simp [own]
    · have hblank : ∀ b ∈ bs, Text.isBlank b = true := fun b hb => isBlank_of_isSeparator (hbs b hb)
      rw [shape, shape, gatherArguments_append, gatherArguments_append]
      simp [gatherArguments, Token.argumentWords?, Text.words_append hblank]
    · obtain ⟨hgap, harguments, -⟩ := hl
      rw [List.all_append, Bool.and_eq_true] at harguments
      refine ⟨hgap, ?_, by simp⟩
      rw [List.all_append, harguments.1]
      rfl
    · rw [own, ← List.cons_append, Written.append_iff] at hw ⊢
      refine ⟨hw.1, Written.cons_iff.2 ⟨hlex, .nil, by simp⟩, fun x hx y hy => ?_⟩
      -- the seam before a comment does not depend on its text
      obtain rfl : Chunk.comment (text ++ String.ofList bs) = y := by simpa using hy
      rw [Chunk.meets_lengthened hcomment]
      exact hw.2.2 x hx _ (by simp)
    · simp [own, List.getLast?_cons]
  | block gap name arguments inside trailing closing blanks =>
    simp [own, List.getLast?_append, Chunk.closeTag, Chunk.comment] at hlast

/-! ## Layouts of nodes -/

/-- The layout has the text and the shape of a node, and does not end in a backslash that could
join it with the next line. -/
structure Prints (t : Tree) (text : List Char) (l : Layout) : Prop where
  text_eq : text = textOf l.own
  shape_eq : l.shape = t.shape
  grammatical : l.Grammatical
  written : Written l.own
  ends : ∀ x ∈ l.own.getLast?, (∃ c, x = .comment c) ∨ x.text.getLast? ≠ some '\\'

/-- The layouts and the gap after them have the text and the shapes of nodes after some text. -/
structure PrintsAll (last : Bool) (before : Ending) (f : Forest) (text : List Char)
    (ls : List Layout) (gap : List Chunk) : Prop where
  text_eq : text = textOf (ownAll ls ++ gap)
  shapes_eq : shapes ls = Forest.shapes f
  grammatical : GrammaticalAll last gap ls
  written : Written (ownAll ls ++ gap)
  loose : Loose (nextGap gap ls)
  breaks : before = .midLine → breaksLine (nextGap gap ls) = true ∨ last = true ∧ ls = []
  closed : last = false → breaksLine gap = true

variable {last : Bool} {before : Ending} {t : Tree} {f : Forest} {text : List Char} {l : Layout}
  {ls : List Layout} {gap : List Chunk}

theorem printsAll_nil (before : Ending) (hgap : Loose gap)
    (hbreaks : last = false → breaksLine gap = true) :
    PrintsAll last before [] (textOf gap) [] gap := by
  refine ⟨rfl, rfl, hgap.all_isGap, ?_, hgap, fun _ => ?_, hbreaks⟩
  · rw [ownAll_nil, List.nil_append, ← List.append_nil gap]
    exact hgap.written_append .nil
  · cases last with
    | true => exact .inr ⟨rfl, rfl⟩
    | false => exact .inl (hbreaks rfl)

/-- What comes after a statement starts with a gap. -/
theorem PrintsAll.isGap_head? (h : PrintsAll last .midLine f text ls gap) :
    ∀ y ∈ (ownAll ls ++ gap).head?, y.isGap = true ∧ y ∈ nextGap gap ls := by
  intro y hy
  have hmem : y ∈ nextGap gap ls := by
    cases ls with
    | nil => exact List.mem_of_mem_head? hy
    | cons m ms =>
      -- the gap breaks a line, so it is not empty
      have hbreak := (h.breaks rfl).resolve_right (by simp)
      rw [nextGap] at hbreak ⊢
      cases hgap : m.gap with
      | nil => simp [hgap, breaksLine] at hbreak
      | cons z zs =>
        obtain rfl : z = y := by simpa [hgap] using hy
        simp
  exact ⟨List.all_eq_true.1 h.loose.all_isGap y hmem, hmem⟩

/-- The blanks before the next line can be taken off. -/
theorem PrintsAll.trimmed (h : PrintsAll last .midLine f text ls gap) :
    ∃ bs rest ls' gap', text = bs ++ rest ∧ (∀ b ∈ bs, isSeparator b = true) ∧
      PrintsAll last .midLine f rest ls' gap' ∧
      ∀ y ∈ (ownAll ls' ++ gap').head?, y.token = some .newline := by
  obtain ⟨bs, gap', htext, hbs, hgap', hbreaks, hhead⟩ := h.loose.exists_blanks
  cases ls with
  -- no statement follows, so the blanks are those of the last gap
  | nil =>
    have hprints : PrintsAll last .midLine f (textOf gap') [] gap' := by
      have hnil := printsAll_nil .midLine hgap' fun hlast =>
        hbreaks.trans (h.closed hlast)
      exact ⟨rfl, h.shapes_eq, hnil.grammatical, hnil.written, hgap', hnil.breaks, hnil.closed⟩
    refine ⟨bs, textOf gap', [], gap', ?_, hbs, hprints, by simpa using hhead⟩
    rw [h.text_eq, ownAll_nil, List.nil_append]
    exact htext
  | cons m ms =>
    -- the blanks are those of the gap before the next statement
    have hbreak := hbreaks.trans ((h.breaks rfl).resolve_right (by simp))
    obtain ⟨hm, hend, hms⟩ := h.grammatical
    have hw := h.written
    rw [ownAll_cons, List.append_assoc, Written.append_iff] at hw
    refine ⟨bs, textOf (ownAll (m.withGap gap' :: ms) ++ gap), m.withGap gap' :: ms, gap, ?_, hbs,
      ⟨rfl, ?_, ⟨hm.withGap hgap'.all_isGap, by simpa using hend, hms⟩, ?_, by simpa [nextGap], ?_,
        h.closed⟩, ?_⟩
    · rw [nextGap] at htext
      simp only [h.text_eq, ownAll_cons, withGap_gap, withGap_own, textOf_append, htext,
        List.append_assoc]
    · rw [← h.shapes_eq, shapes, shapes, withGap_shape]
    · rw [ownAll_cons, withGap_gap, withGap_own, List.append_assoc]
      exact hgap'.written_append hw.2.1
    · exact fun _ => .inl (by simpa [nextGap] using hbreak)
    · intro y hy
      cases gap' with
      | nil => simp [breaksLine] at hbreak
      | cons z zs =>
        obtain rfl : z = y := by simpa using hy
        exact hhead z (by simp)

/-- A statement is put before others that it ends before. -/
theorem Prints.cons_of_meets {rest : List Char} {lead : List Chunk} (h : Prints t text l)
    (hlead : Loose lead) (hbefore : before = .midLine → breaksLine lead = true)
    (hf : PrintsAll last .midLine f rest ls gap)
    (hmeets : ∀ x ∈ l.own.getLast?, ∀ y ∈ (ownAll ls ++ gap).head?, x.meets y = true) :
    PrintsAll last before (t :: f) (textOf lead ++ (text ++ rest)) (l.withGap lead :: ls) gap where
  text_eq := by simp [h.text_eq, hf.text_eq]
  shapes_eq := by rw [shapes, Forest.shapes, withGap_shape, h.shape_eq, hf.shapes_eq]
  grammatical := ⟨h.grammatical.withGap hlead.all_isGap, fun _ => hf.breaks rfl, hf.grammatical⟩
  written := by
    rw [ownAll_cons, withGap_gap, withGap_own, List.append_assoc, List.append_assoc]
    exact hlead.written_append (Written.append_iff.2 ⟨h.written, hf.written, hmeets⟩)
  loose := by simpa [nextGap] using hlead
  breaks hmid := .inl (by simpa [nextGap] using hbefore hmid)
  closed := hf.closed

/-- A statement is put before others, after any gap without joined lines. If it ends in a comment,
this takes in the blanks that follow. -/
theorem Prints.cons {rest : List Char} {lead : List Chunk} (h : Prints t text l)
    (hlead : Loose lead) (hbefore : before = .midLine → breaksLine lead = true)
    (hf : PrintsAll last .midLine f rest ls gap) :
    ∃ ls' gap', PrintsAll last before (t :: f) (textOf lead ++ (text ++ rest)) ls' gap' := by
  by_cases hcomment : ∃ c, l.own.getLast? = some (.comment c)
  · -- a comment goes on up to the line break, so it is the longer one that stands there
    obtain ⟨c, hc⟩ := hcomment
    obtain ⟨bs, rest', ls', gap', rfl, hbs, hf', hhead⟩ := hf.trimmed
    obtain ⟨l', htext, hshape, hgrammatical, hwritten, hlast⟩ :=
      exists_lengthened h.grammatical h.written hc hbs
    have hl' : Prints t (text ++ bs) l' := by
      refine ⟨by rw [htext, h.text_eq], hshape.trans h.shape_eq, hgrammatical, hwritten, ?_⟩
      intro x hx
      exact .inl ⟨_, (Option.some.inj (hlast.symm.trans hx)).symm⟩
    rw [← List.append_assoc text]
    refine ⟨_, _, hl'.cons_of_meets hlead hbefore hf' fun x hx y hy => ?_⟩
    obtain rfl := Option.some.inj (hlast.symm.trans hx)
    rw [Chunk.meets, hhead y hy]
    rfl
  · -- nothing but a comment goes on into a gap, as there is no backslash to join lines
    refine ⟨_, _, h.cons_of_meets hlead hbefore hf fun x hx y hy => ?_⟩
    obtain ⟨hgap, hmem⟩ := hf.isGap_head? y hy
    have hx' : ∀ c, x ≠ .comment c := fun c hxc => hcomment ⟨c, hxc ▸ hx⟩
    have hback := (h.ends x hx).resolve_left fun ⟨c, hc⟩ => hx' c hc
    refine Chunk.meets_gap ?_ (fun _ _ hlast => absurd hlast hback) (hf.loose.isLexical y hmem) hgap
    have hlex := h.written.isLexical x (List.mem_of_getLast? hx)
    exact fun c htoken => hx' c (hlex.eq_comment htoken)

/-- A block is printed around what is inside it. -/
theorem prints_block {core : Core} {statement : Statement} {arguments : List Chunk}
    {closing : String} {blanks : List Char}
    (harguments : arguments.all Chunk.isTagArgument = true)
    (hparameters : tagArguments arguments = statement.parameters)
    (htag : Written (openTagChunks statement.name arguments))
    (hclose : (Chunk.closeTag closing blanks).IsLexical)
    (hsame : Text.sameName closing statement.name = true)
    (hf : PrintsAll false .midLine f text ls gap) :
    Prints (.block core statement f)
      (textOf (openTagChunks statement.name arguments) ++
        (text ++ (Chunk.closeTag closing blanks).text))
      (.block [] statement.name arguments ls gap closing blanks) := by
  refine ⟨?_, ?_, ⟨rfl, harguments, hf.grammatical, hsame⟩, ?_, ?_⟩
  · rw [own, hf.text_eq]
    simp
  · rw [shape, Tree.shape, hparameters, hf.shapes_eq]
  · rw [own, Written.append_iff, ← List.append_assoc, Written.append_iff]
    refine ⟨htag, ⟨hf.written, Written.cons_iff.2 ⟨hclose, .nil, by simp⟩, fun x hx y _ => ?_⟩,
      fun x hx y _ => ?_⟩
    · -- the gap before the close tag is not empty, because it breaks a line
      have hne : gap ≠ [] := by
        rintro rfl
        simpa [breaksLine] using hf.closed rfl
      rw [List.getLast?_append_of_ne_nil _ hne] at hx
      have hall := List.all_eq_true.1 hf.grammatical.trailing
      exact Chunk.isGap.meets (hall x (List.mem_of_getLast? hx))
    · obtain rfl : Chunk.tagEnd = x := by simpa [getLast?_openTagChunks] using hx
      rfl
  · intro x hx
    obtain rfl : Chunk.closeTag closing blanks = x := by simpa [own, List.getLast?_append] using hx
    right
    simp [List.getLast?_cons, List.getLast?_append]

end Layout

end HttpdConf
