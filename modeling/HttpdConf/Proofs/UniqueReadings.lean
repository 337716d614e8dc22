import HttpdConf.Proofs.Junctions

/-!
# Texts are read in one way

A text is cut into chunks in one way, and the chunks are put together to statements in one way. So
where one text starts with another one, what was read in the shorter text is read again in the
longer one: the chunks up to the last one that ends there, and the statements up to the last one
that is finished there.

## Main definitions

* `Draft.outermost`: the statements of a draft that are in no open block
* `Layout.Closes`: what may come after the statements of a file or a block

## Main results

* `Written.exists_append`: the chunks of a text are found again in a longer text
* `Draft.Runs.outermost_grows`: a draft keeps its finished statements
* `Layout.GrammaticalAll.eq_of_length_eq`: as many statements at the start of a text are the same
* `Layout.GrammaticalAll.eq_of_closes`: all statements up to a close tag or the end are the same
-/

namespace HttpdConf

/-! ## One way to cut a text into chunks -/

theorem Chunk.ext_iff {x y : Chunk} : x = y ↔ x.token = y.token ∧ x.text = y.text := by
  cases x
  cases y
  simp

namespace Written

variable {k : Chunk} {ks zs : List Chunk} {cs : List Char}

/-- The chunks of a text are found again at the start of a longer text, if the last of them ends
there. -/
theorem exists_append (h : Written ks) (hz : Written zs) (htext : textOf zs = textOf ks ++ cs)
    (hstops : ∀ x ∈ ks.getLast?, x.Stops cs) : ∃ more, zs = ks ++ more ∧ textOf more = cs := by
  induction ks generalizing zs with
  | nil => exact ⟨zs, rfl, htext⟩
  | cons k ks ih =>
    obtain ⟨c, more, hk, hread⟩ :=
      Piece.read?_of_isLexical (h.isLexical k (by simp)) (h.stops_append hstops)
    cases zs with
    | nil => simp [hk] at htext
    | cons z zs =>
      obtain ⟨c', more', hz', hread'⟩ :=
        Piece.read?_of_isLexical (hz.isLexical z (by simp)) hz.stops
      -- both are what the scanner reads first
      rw [textOf_cons, textOf_cons, hk, hz', List.cons_append, List.append_assoc, List.cons_append]
        at htext
      obtain ⟨rfl, hrest⟩ := List.cons.inj htext
      rw [hrest, hread] at hread'
      obtain ⟨htoken, hchars, hafter⟩ := Piece.mk.inj (Option.some.inj hread')
      obtain rfl : k = z := Chunk.ext_iff.2 ⟨htoken, hchars⟩
      have hstops' : ∀ x ∈ ks.getLast?, x.Stops cs := by
        intro x hx
        exact hstops x (by simp [List.getLast?_cons, Option.mem_def.1 hx])
      obtain ⟨more, rfl, hmore⟩ := ih h.tail hz.tail hafter.symm hstops'
      exact ⟨more, rfl, hmore⟩

end Written

/-! ## One way to draft a page -/

theorem Chunk.comment_inj {text text' : String} :
    Chunk.comment text = Chunk.comment text' ↔ text = text' :=
  ⟨fun h => by simpa using congrArg Chunk.token h, congrArg _⟩

theorem Chunk.word_inj {text text' : String} : Chunk.word text = Chunk.word text' ↔ text = text' :=
  ⟨fun h => by simpa using congrArg Chunk.token h, congrArg _⟩

theorem Chunk.closeTag_inj {name name' : String} {blanks blanks' : List Char} :
    Chunk.closeTag name blanks = Chunk.closeTag name' blanks' ↔
      name = name' ∧ blanks = blanks' := by
  constructor
  · intro h
    obtain ⟨htoken, htext⟩ := Chunk.ext_iff.1 h
    obtain rfl : name = name' := by simpa using htoken
    exact ⟨rfl, by simpa using htext⟩
  · rintro ⟨rfl, rfl⟩
    rfl

namespace Draft

variable {d d' d₁ d₂ : Draft} {k : Chunk} {ks more : List Chunk} {as bs : List Layout}
  {gap gap' : List Chunk}

theorem Step.unique (h₁ : d.Step k d₁) (h₂ : d.Step k d₂) : d₁ = d₂ := by
  cases h₁ with
  | closeTag hname =>
    generalize hk : Chunk.closeTag _ _ = k' at h₂
    cases h₂ with
    | gap hgap => simp [← hk, Chunk.isGap] at hgap
    | closeTag hname' =>
      obtain ⟨rfl, rfl⟩ := Chunk.closeTag_inj.1 hk
      rfl
    | _ => simp [Chunk.ext_iff] at hk
  | tagEnd =>
    cases h₂ with
    | tagArgument htag => simp [Chunk.isTagArgument, Token.tagArgument?] at htag
    | tagEnd => rfl
  | _ =>
    cases h₂ <;>
      simp_all [Chunk.isGap, Chunk.isTagArgument, Token.tagArgument?, Token.argumentWords?]

theorem Runs.unique (h₁ : d.Runs ks d₁) (h₂ : d.Runs ks d₂) : d₁ = d₂ := by
  induction ks generalizing d with
  | nil => exact h₁.symm.trans h₂
  | cons k ks ih =>
    obtain ⟨m₁, hstep₁, hruns₁⟩ := h₁
    obtain ⟨m₂, hstep₂, hruns₂⟩ := h₂
    obtain rfl := hstep₁.unique hstep₂
    exact ih hruns₁ hruns₂

/-- Drafts go on from each other. -/
theorem Runs.of_append (h : d.Runs ks d₁) (h' : d.Runs (ks ++ more) d₂) : d₁.Runs more d₂ := by
  induction ks generalizing d with
  | nil =>
    obtain rfl : d = d₁ := h
    exact h'
  | cons k ks ih =>
    obtain ⟨m, hstep, hruns⟩ := h
    obtain ⟨m', hstep', hruns'⟩ := h'
    obtain rfl := hstep.unique hstep'
    exact ih hruns hruns'

/-- The finished statements that are in no open block. -/
def outermost (d : Draft) : List Layout := (d.opened.getLast?.map OpenLayout.before).getD d.done

theorem Step.outermost_grows (h : d.Step k d') : d.outermost <+: d'.outermost := by
  cases h with
  | @closeTag o outer =>
    cases outer with
    | nil => simp [outermost]
    | cons o' outer =>
      simp only [outermost, List.getLast?_cons_cons]
      cases houter : (o' :: outer).getLast? with
      | none => simp at houter
      | some => simp
  | @tagEnd opened =>
    cases opened with
    | nil => simp [outermost]
    | cons o opened =>
      simp only [outermost, List.getLast?_cons_cons]
      cases hopened : (o :: opened).getLast? with
      | none => simp at hopened
      | some => simp
  | @comment opened => cases hopened : opened.getLast? <;> simp [outermost, hopened]
  | @endLine opened => cases hopened : opened.getLast? <;> simp [outermost, hopened]
  | @gap opened => exact List.prefix_refl _
  | @word opened => exact List.prefix_refl _
  | @openTag opened => exact List.prefix_refl _
  | @blank opened => exact List.prefix_refl _
  | @argument opened => exact List.prefix_refl _
  | @tagArgument opened => exact List.prefix_refl _

theorem Runs.outermost_grows (h : d.Runs ks d') : d.outermost <+: d'.outermost := by
  induction ks generalizing d with
  | nil =>
    obtain rfl : d = d' := h
    exact List.prefix_refl _
  | cons k ks ih =>
    obtain ⟨m, hstep, hruns⟩ := h
    exact hstep.outermost_grows.trans (ih hruns)

theorem Rests.unique (h₁ : d.Rests [] as gap) (h₂ : d.Rests [] bs gap') : as = bs := by
  rcases h₁ with rfl | ⟨-, before, leading, name, arguments, rfl, rfl⟩ <;>
    rcases h₂ with h₂ | ⟨-, before', leading', name', arguments', rfl, h₂⟩ <;>
    simp_all

end Draft

namespace Layout

variable {l : Layout} {as bs : List Layout}
  {gap gap' trailing trailing' rest rest' ks ks' : List Chunk}
  {last : Bool}

theorem GrammaticalAll.of_append (h : GrammaticalAll last trailing (as ++ l :: bs)) :
    GrammaticalAll false l.gap as ∧ GrammaticalAll last trailing (l :: bs) := by
  induction as with
  | nil => exact ⟨h.1.all_isGap, h⟩
  | cons m as ih =>
    obtain ⟨hm, hend, hrest⟩ := h
    obtain ⟨has, hbs⟩ := ih hrest
    refine ⟨⟨hm, fun hdirective => .inl ?_, has⟩, hbs⟩
    have hbreak := (hend hdirective).resolve_right (by simp)
    cases as <;> exact hbreak

/-- As many statements as there are at the start of other chunks are the statements there. -/
theorem GrammaticalAll.eq_of_length_eq (has : GrammaticalAll false gap as)
    (hbs : GrammaticalAll false gap' bs) (hlength : as.length = bs.length)
    (h : ownAll as ++ (gap ++ ks) = ownAll bs ++ (gap' ++ ks')) : as = bs := by
  obtain ⟨d, hruns, hd⟩ := Draft.runs_all [] [] as has (.inl rfl)
  obtain ⟨d', hruns', hd'⟩ := Draft.runs_all [] [] bs hbs (.inl rfl)
  obtain rfl := hd.resolve_right (by simp)
  obtain rfl := hd'.resolve_right (by simp)
  rw [← List.append_assoc, ← List.append_assoc (ownAll bs)] at h
  -- one of the two drafts goes on to the other, and keeps what is finished
  rcases List.prefix_or_prefix_of_prefix ⟨ks, h⟩ ⟨ks', rfl⟩ with ⟨more, hmore⟩ | ⟨more, hmore⟩
  · rw [← hmore] at hruns'
    exact (hruns.of_append hruns').outermost_grows.eq_of_length hlength
  · rw [← hmore] at hruns
    exact ((hruns'.of_append hruns).outermost_grows.eq_of_length hlength.symm).symm

/-- What comes after the statements of a file, and after those of a block. -/
inductive Closes : Bool → List Chunk → Prop
  | file : Closes true []
  | block {name : String} {blanks : List Char} {more : List Chunk} :
      Closes false (.closeTag name blanks :: more)

/-- No statement goes on past the close tag of the block it is in. -/
theorem eq_nil_of_runs_closeTag {done : List Layout} {d : Draft} {more tail : List Chunk}
    {name : String}
    {blanks : List Char} (h : Draft.Runs ⟨[], done, .gap gap⟩ more d)
    (hclose : .closeTag name blanks :: tail = more ++ ks) : more = [] := by
  cases more with
  | nil => rfl
  | cons k more =>
    obtain ⟨hk, -⟩ := List.cons.inj hclose
    obtain ⟨m, hstep, -⟩ := h
    cases hstep with
    | gap hgap => simp [← hk, Chunk.isGap] at hgap
    | _ => simp [Chunk.ext_iff] at hk

/-- All statements up to a close tag or the end are the same. -/
theorem GrammaticalAll.eq_of_closes (has : GrammaticalAll last trailing as)
    (hbs : GrammaticalAll last trailing' bs) (hrest : Closes last rest) (hrest' : Closes last rest')
    (h : ownAll as ++ (trailing ++ rest) = ownAll bs ++ (trailing' ++ rest')) : as = bs := by
  obtain ⟨d, hruns, hd⟩ := Draft.runs_all [] [] as has (.inl rfl)
  obtain ⟨d', hruns', hd'⟩ := Draft.runs_all [] [] bs hbs (.inl rfl)
  rw [← List.append_assoc, ← List.append_assoc (ownAll bs)] at h
  cases hrest with
  | file =>
    cases hrest'
    rw [List.append_nil, List.append_nil] at h
    rw [h] at hruns
    obtain rfl := hruns.unique hruns'
    have hrests : d.Rests [] as trailing := hd.elim .inl And.right
    have hrests' : d.Rests [] bs trailing' := hd'.elim .inl And.right
    exact hrests.unique hrests'
  | block =>
    cases hrest'
    obtain rfl := hd.resolve_right (by simp)
    obtain rfl := hd'.resolve_right (by simp)
    rcases List.append_eq_append_iff.1 h with ⟨more, hmore, hclose⟩ | ⟨more, hmore, hclose⟩
    · rw [hmore] at hruns'
      have hmore' := hruns.of_append hruns'
      obtain rfl := eq_nil_of_runs_closeTag hmore' hclose
      exact congrArg Draft.done hmore'
    · rw [hmore] at hruns
      have hmore' := hruns'.of_append hruns
      obtain rfl := eq_nil_of_runs_closeTag hmore' hclose
      exact (congrArg Draft.done hmore').symm

end Layout

end HttpdConf
